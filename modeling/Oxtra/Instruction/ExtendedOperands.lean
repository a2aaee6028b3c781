import Oxtra.Instruction.OperandValues
import Oxtra.Library.TwosComplement

/-!
# Operands loaded as whole words

Operands that are multiplied or divided are loaded with an extension to 64
bits.  The results are written to parts of the registers `rax` and `rdx`.
-/

namespace Oxtra

open RiscV
open Encoding
open Helper
open TwosComplement
open Fadec (Operand OperandSize)

/-! ## Parts of registers -/

namespace Helper

/-- The shifts to the top of a register and back. -/
theorem shift_extend
    {width : Nat}
    (signed : Bool)
    (value : Word)
    {top bottom : Nat}
    (positive : 0 < width)
    (outside : bottom + width = 64)
    (inside : top ≤ bottom) :
    (if signed then (value <<< top).sshiftRight bottom
      else value <<< top >>> bottom) =
      extend signed (value.extractLsb' (bottom - top) width) 64 := by
  apply BitVec.eq_of_getLsbD_eq
  intro index below
  cases signed with
  | false =>
      simp only [extend, Bool.false_eq_true, if_false,
        BitVec.getLsbD_ushiftRight, BitVec.getLsbD_shiftLeft,
        BitVec.getLsbD_setWidth, BitVec.getLsbD_extractLsb']
      grind
  | true =>
      simp only [extend, if_true, BitVec.getLsbD_sshiftRight,
        BitVec.getLsbD_shiftLeft, BitVec.getLsbD_signExtend,
        BitVec.getLsbD_extractLsb', BitVec.msb_eq_getLsbD_last]
      have last : bottom - top + (width - 1) = 63 - top := by omega
      grind

/-- A part of a register, between its shifts. -/
theorem shifts_part
    {access : RegisterAccess}
    (short : access ≠ .qword)
    (signed : Bool)
    (value : Word) :
    let top := (access.shifts.1.setWidth 6).toNat
    let bottom := (access.shifts.2.setWidth 6).toNat
    (if signed then (value <<< top).sshiftRight bottom
      else value <<< top >>> bottom) =
      extend signed ((access.part value).setWidth access.bits) 64 := by
  intro top bottom
  have bits : 0 < access.bits ∧ bottom + access.bits = 64 ∧ top ≤ bottom := by
    cases access with
    | qword => exact absurd rfl short
    | _ => decide
  have place : (access.part value).setWidth access.bits =
      value.extractLsb' (bottom - top) access.bits := by
    cases access with
    | qword => exact absurd rfl short
    | hbyte =>
        simp only [RegisterAccess.part, RegisterAccess.bits]
        rw [BitVec.setWidth_setWidth_of_le _ (by decide), BitVec.setWidth_eq]
        rfl
    | dword | word | lbyte =>
        simp only [RegisterAccess.part, RegisterAccess.bits]
        rw [BitVec.setWidth_setWidth_of_le _ (by decide), BitVec.setWidth_eq]
        exact BitVec.setWidth_eq_extractLsb' (by decide)
  rw [shift_extend signed value bits.1 bits.2.1 bits.2.2, place]

/-- A part that is loaded fully is extended. -/
theorem loadFromRegister_full
    {src temp : Register}
    (tempNonzero : temp ≠ .zero)
    (access : RegisterAccess)
    (modifiable signExtend : Bool)
    (pc : Word)
    (state : State) :
    let loaded := loadFromRegister src access temp modifiable true signExtend
    (applyAll pc state loaded.1).get loaded.2 =
      extend signExtend ((access.part (state.get src)).setWidth access.bits)
        64 := by
  by_cases whole : access = .qword
  · subst whole
    have same : extend signExtend
        ((RegisterAccess.qword.part (state.get src)).setWidth
          RegisterAccess.qword.bits) 64 = state.get src := by
      cases signExtend <;>
        simp [extend, RegisterAccess.part, RegisterAccess.bits]
    rw [same]
    cases modifiable <;> simp [loadFromRegister, tempNonzero]
  · rw [← shifts_part whole]
    simp only [loadFromRegister, if_true, ne_eq, whole, not_false_eq_true,
      applyAll_cons, applyAll_nil, apply_slli]
    cases signExtend <;>
      simp [State.set_get_self _ _ tempNonzero]

end Helper

/-! ## Operands -/

namespace Instruction

/-- A short load has no upper bits. -/
theorem load_truncated
    (size : OperandSize)
    (mem : Memory)
    (address : Word) :
    ((mem.load address size.bytes).setWidth size.bits).setWidth 64 =
      mem.load address size.bytes := by
  have bound := mem.loadNat_lt address size.bytes
  have short : size.bytes ≤ 8 := by cases size <;> decide
  apply BitVec.eq_of_toNat_eq
  rw [← mem.load_toNat address short] at bound
  simp only [BitVec.toNat_setWidth]
  cases size <;>
    simp only [OperandSize.bits, OperandSize.bytes] at bound ⊢ <;> omega

/-- A load of bytes with an extension. -/
theorem operandLoad_eval
    (size : OperandSize)
    (signed : Bool)
    (mem : Memory)
    (address : Word) :
    (operandLoad size signed).eval mem address =
      extend signed ((mem.load address size.bytes).setWidth size.bits) 64 := by
  cases signed with
  | false =>
      have evaluated : (operandLoad size false).eval mem address =
          mem.load address size.bytes := by cases size <;> rfl
      rw [evaluated]
      exact (load_truncated size mem address).symm
  | true =>
      cases size with
      | qword => exact (BitVec.signExtend_eq _).symm
      | _ => rfl

/-- The accesses to an operand that is read. -/
def loadAccesses (inst : Instruction) (op : Operand) (state : State) :
    List Access :=
  match op with
  | .mem size _ => [.load (inst.guestAddress op state) size.bytes]
  | _ => []

section Extended

variable {inst : Instruction} {op : Operand} {tempA tempB : Register}
variable (scratchA : Scratch tempA) (scratchB : Scratch tempB)
variable (freeA : isGuest tempA = false) (freeB : isGuest tempB = false)
variable (different : tempA ≠ tempB)
variable (modifiable signed : Bool) (pc : Word) (state : State)

/-- The code that loads an operand with an extension. -/
def translateExtended
    (inst : Instruction)
    (op : Operand)
    (tempA tempB : Register)
    (modifiable signed : Bool) : Translation :=
  inst.translateOperand op tempA tempB modifiable true signed false

theorem translateExtended_straight :
    ∀ written ∈ (inst.translateExtended op tempA tempB modifiable signed).code,
      written.isStraight = true := by
  by_cases isMem : op.isMem = true
  · cases op with
    | mem size base => exact inst.readFromMemory_straight _ _ _
    | _ => cases isMem
  · exact (inst.translateOperand_computesInto (by simpa using isMem) _ _ _ _ _
      _).straight

/-- The value is in the temporary or in a register of the guest. -/
theorem translateExtended_register (valued : op ≠ .none) :
    let value := (inst.translateExtended op tempA tempB modifiable signed).value
    value = tempA ∨ isGuest value = true := by
  cases op with
  | none => exact absurd rfl valued
  | mem size base => exact Or.inl rfl
  | imm size => exact Or.inl rfl
  | reg size register type =>
      exact inst.translateOperand_register (Or.inl rfl) tempA tempB modifiable
        true signed false

/-- An immediate is loaded as it is. -/
theorem translateExtended_immediate
    (isImm : op.isImm = true)
    (nonzero : tempA ≠ .zero)
    (tempB : Register)
    (modifiable signed : Bool) :
    let loaded := inst.translateExtended op tempA tempB modifiable signed
    loaded.value = tempA ∧ ∀ pc state,
      (applyAll pc state loaded.code).get tempA = inst.immediate := by
  cases op with
  | imm size =>
      refine ⟨rfl, fun pc state => ?_⟩
      simp only [translateExtended, translateOperand,
        applyAll_loadImmediate nonzero, State.set_get_self _ _ nonzero]
      simp [maskedImmediate]
  | _ => cases isImm

include scratchA scratchB freeA freeB different

/-- The address that an operand is loaded from. -/
theorem readBase_accessed :
    (applyAll pc state (inst.readBase op tempA tempB).1).get
          (inst.readBase op tempA tempB).2 +
        signedImm inst.operationDisplacement =
      inst.accessedAddress op state + inst.segmentBase state :=
  inst.address_add state (inst.readBase_value pc state scratchA scratchB
    different.symm
    (fun base _ => ne_of_isGuest (isGuest_mapReg base) freeB)
    fun _ => inst.not_clobbers_of_reserved op freeA)

omit freeA freeB different scratchA scratchB in
theorem accessed_eq_iff :
    inst.accessedAddress op state + inst.segmentBase state =
        inst.guestAddress op state ↔
      inst.AddressFits op state := by
  rw [guestAddress, add_left_inj]
  exact inst.accessedAddress_eq_iff op state

/-- The operand is accessed where it is if its address fits. -/
theorem translateExtended_accesses_iff :
    accessesApart contextAddress (Environment.straightTrace pc state
        (inst.translateExtended op tempA tempB modifiable signed).code) =
        inst.loadAccesses op state ↔
      (op.isMem = true -> inst.AddressFits op state) := by
  by_cases isMem : op.isMem = true
  · cases op with
    | mem size base =>
        have reached := @readBase_accessed inst (.mem size base) tempA tempB
          scratchA scratchB freeA freeB different pc state
        have accesses := inst.readFromMemory_accesses pc state scratchA scratchB
          reached signed
        simp only [translateExtended, translateOperand, accesses, loadAccesses,
          List.cons.injEq, and_true, Access.load.injEq, Operand.size]
        rw [accessed_eq_iff]
        simp [Operand.isMem]
    | _ => cases isMem
  · have computes := inst.translateOperand_computesInto
      (by simpa using isMem) tempA tempB modifiable true signed false
    have silent : inst.loadAccesses op state = [] := by
      cases op with
      | mem size base => exact absurd rfl isMem
      | _ => rfl
    rw [translateExtended, computes.accessesApart, silent]
    simp [isMem]

/-- An operand in a register or in memory is loaded with its extension. -/
theorem translateExtended_value
    (valid : op.valid = true)
    (located : op.isReg = true ∨ op.isMem = true)
    (fits : op.isMem = true -> inst.AddressFits op state) :
    let loaded := inst.translateExtended op tempA tempB modifiable signed
    (applyAll pc state loaded.code).get loaded.value =
      extend signed (inst.operandBits op op.size state) 64 := by
  cases op with
  | none => simp [Operand.isReg, Operand.isMem] at located
  | imm size => simp [Operand.isReg, Operand.isMem] at located
  | reg size register type =>
      have bits := registerAccess_bits valid
      rw [operandBits, ← bits]
      exact loadFromRegister_full scratchA.1 _ modifiable signed pc state
  | mem size base =>
      have reached := @readBase_accessed inst (.mem size base) tempA tempB
        scratchA scratchB freeA freeB different pc state
      have applied := inst.readFromMemory_apply pc state reached signed
      rw [(inst.accessed_eq_iff state).mpr (fits rfl)] at applied
      simp only [translateExtended, translateOperand, applied,
        State.set_get_self _ _ scratchA.1]
      exact operandLoad_eval size signed state.mem _

/-- Nothing but the temporaries is written. -/
theorem translateExtended_get
    {register : Register}
    (notA : register ≠ tempA)
    (notB : register ≠ tempB) :
    (applyAll pc state (inst.translateExtended op tempA tempB modifiable
      signed).code).get register = state.get register := by
  by_cases isMem : op.isMem = true
  · cases op with
    | mem size base =>
        have reached := @readBase_accessed inst (.mem size base) tempA tempB
          scratchA scratchB freeA freeB different pc state
        have applied := inst.readFromMemory_apply pc state reached signed
        simp only [translateExtended, translateOperand, applied,
          State.set_get_of_ne _ _ notA]
        exact inst.readBase_get pc state tempA tempB notA notB
    | _ => cases isMem
  · have computes := inst.translateOperand_computesInto
      (by simpa using isMem) tempA tempB modifiable true signed false
    exact computes.get pc state (by simpa using notA)

theorem translateExtended_mem :
    (applyAll pc state (inst.translateExtended op tempA tempB modifiable
      signed).code).mem = state.mem := by
  by_cases isMem : op.isMem = true
  · cases op with
    | mem size base =>
        have reached := @readBase_accessed inst (.mem size base) tempA tempB
          scratchA scratchB freeA freeB different pc state
        have applied := inst.readFromMemory_apply pc state reached signed
        simp only [translateExtended, translateOperand, applied,
          State.set_mem]
        exact inst.readBase_mem pc state tempA tempB
    | _ => cases isMem
  · exact (inst.translateOperand_computesInto (by simpa using isMem) tempA
      tempB modifiable true signed false).mem pc state

end Extended

end Instruction

/-! ## Results in two parts -/

namespace Helper

/-- The registers after a part of one of them is written. -/
def writePart
    (place : Register)
    (access : RegisterAccess)
    (value : Word)
    (registers : Register -> Word)
    (register : Register) : Word :=
  if register = place then
    access.merge (registers place) value
  else
    registers register

/-- Only the bits of the part are written. -/
theorem writePart_congr
    (place : Register)
    {access : RegisterAccess}
    {first second : Word}
    (same : first.setWidth access.bits = second.setWidth access.bits)
    (registers : Register -> Word) :
    writePart place access first registers =
      writePart place access second registers := by
  funext register
  unfold writePart
  rw [access.merge_congr _ same]

theorem moveToRegister_writes
    {place src temp : Register}
    (guest : isGuest place = true)
    (tempNonzero : temp ≠ .zero)
    (tempFree : isGuest temp = false)
    (tempSrc : temp ≠ src)
    {access : RegisterAccess}
    (apart : access = .lbyte -> src ≠ place)
    (pc : Word)
    (state : State)
    {register : Register}
    (notTemp : register ≠ temp) :
    (applyAll pc state (moveToRegister place src access temp false)).get
        register =
      writePart place access (state.get src) state.get register := by
  unfold writePart
  split
  · rename_i same
    rw [same]
    exact moveToRegister_value _ _ (ne_of_isGuest guest (by decide))
      tempNonzero (ne_of_isGuest guest tempFree).symm tempSrc apart
  · rename_i other
    exact (moveToRegister_computesInto access false).get _ _
      (by simp [other, notTemp])

/-- The part that the upper half of a result is written to. -/
def upperPlace : OperandSize -> Register × RegisterAccess
  | .byte => (rax, .hbyte)
  | size => (rdx, RegisterAccess.ofSize size)

/-- The registers after both halves of a result are written. -/
def writeHalves
    (size : OperandSize)
    (lower upper : Word)
    (registers : Register -> Word) : Register -> Word :=
  writePart (upperPlace size).1 (upperPlace size).2 upper
    (writePart rax (RegisterAccess.ofSize size) lower registers)

theorem ofSize_bits (size : OperandSize) :
    (RegisterAccess.ofSize size).bits = size.bits := by
  cases size <;> rfl

theorem upperPlace_bits (size : OperandSize) :
    (upperPlace size).2.bits = size.bits := by
  cases size <;> rfl

theorem setWidth_merge_hbyte (old value : Word) :
    (RegisterAccess.hbyte.merge old value).setWidth 8 = old.setWidth 8 :=
  BitVec.setWidth_append_eq_right

/-- Only the bits of the halves count. -/
theorem writeHalves_eq_iff
    (size : OperandSize)
    (lower upper otherLower otherUpper : Word)
    (registers : Register -> Word) :
    (∀ reg, writeHalves size lower upper registers (mapReg reg) =
        writeHalves size otherLower otherUpper registers (mapReg reg)) ↔
      lower.setWidth size.bits = otherLower.setWidth size.bits ∧
        upper.setWidth size.bits = otherUpper.setWidth size.bits := by
  constructor
  · intro same
    by_cases byte : size = .byte
    · subst byte
      have both := same 0
      change RegisterAccess.hbyte.merge
          (RegisterAccess.lbyte.merge (registers rax) lower) upper =
        RegisterAccess.hbyte.merge
          (RegisterAccess.lbyte.merge (registers rax) otherLower) otherUpper
        at both
      have low := congrArg (BitVec.setWidth 8) both
      have high := congrArg (BitVec.extractLsb' 8 8) both
      have inner := fun value => @RegisterAccess.merge_setWidth .lbyte
        (by decide) (registers rax) value
      rw [setWidth_merge_hbyte, setWidth_merge_hbyte] at low
      have low := (inner lower).symm.trans (low.trans (inner otherLower))
      rw [RegisterAccess.extract_merge_hbyte,
        RegisterAccess.extract_merge_hbyte] at high
      exact ⟨low, high⟩
    · have place : upperPlace size = (rdx, RegisterAccess.ofSize size) := by
        cases size with
        | byte => exact absurd rfl byte
        | _ => rfl
      have low := same 0
      have high := same 2
      have different : rdx ≠ rax := by decide
      change writeHalves size lower upper registers rax =
        writeHalves size otherLower otherUpper registers rax at low
      change writeHalves size lower upper registers rdx =
        writeHalves size otherLower otherUpper registers rdx at high
      simp only [writeHalves, place, writePart, different, different.symm,
        if_true, if_false, RegisterAccess.merge_eq_iff] at low high
      rw [ofSize_bits] at low high
      exact ⟨low, high⟩
  · rintro ⟨low, high⟩ reg
    rw [← upperPlace_bits] at high
    rw [← ofSize_bits] at low
    rw [writeHalves, writeHalves, writePart_congr _ low,
      writePart_congr _ high]

theorem writePart_registers
    {first second : Register -> Word}
    {place register : Register}
    (samePlace : first place = second place)
    (same : first register = second register)
    (access : RegisterAccess)
    (value : Word) :
    writePart place access value first register =
      writePart place access value second register := by
  rw [writePart, writePart, samePlace, same]

theorem writeHalves_registers
    {first second : Register -> Word}
    (same : ∀ reg, first (mapReg reg) = second (mapReg reg))
    (size : OperandSize)
    (lower upper : Word)
    (reg : Fadec.Register) :
    writeHalves size lower upper first (mapReg reg) =
      writeHalves size lower upper second (mapReg reg) := by
  have inner := fun reg => writePart_registers (same 0) (same reg)
    (RegisterAccess.ofSize size) lower
  refine writePart_registers ?_ (inner reg) _ _
  cases size with
  | byte => exact inner 0
  | _ => exact inner 2

end Helper

end Oxtra

import Oxtra.Instruction.ExtendedOperands
import Oxtra.Instructions.DirectLoads

/-!
# Moves into registers

A move copies its source into a part of a register.  The extending moves write
the whole register, even if the destination is shorter, and a move of a low
byte to itself clears the byte.  An effective address is written as it is
computed from the registers in front of the instruction.
-/

namespace Oxtra

open RiscV
open Encoding
open Helper
open TwosComplement
open Fadec (Operand OperandSize)

/-- An operand in a register has a register. -/
theorem Fadec.Operand.exists_reg
    {op : Operand}
    (isReg : op.isReg = true) :
    ∃ size register type, op = .reg size register type := by
  cases op with
  | reg size register type => exact ⟨size, register, type, rfl⟩
  | _ => cases isReg

namespace Instruction

/-! ## Writes to registers -/

/-- A word is written to an operand in a register, and nothing else is
changed. -/
structure WritesRegister
    (op : Operand)
    (value : Word)
    (state final : State) : Prop where
  registers : ∀ reg, final.get (mapReg reg) = writtenRegisters op value state reg
  memory : final.mem = state.mem
  context : final.get contextAddress = state.get contextAddress

/-- Some code writes a word to an operand in a register. -/
def Writes
    (env : Environment)
    (code : List Inst)
    (op : Operand)
    (value : Word)
    (state : State) : Prop :=
  ∃ final, env.Exits code state (.ended final) ∧
    WritesRegister op value state final

/-- Code that computes into the register of an operand and into temporaries
writes what the register holds behind it. -/
theorem writes_iff
    {env : Environment}
    (permits : env.PermitsEverything)
    {code : List Inst}
    {size : OperandSize}
    {register : Fadec.Register}
    {type : Fadec.RegisterType}
    {temps : List Register}
    (computes : ComputesInto (mapRegType register type :: temps) code)
    (guestFree : ∀ temp ∈ temps, isGuest temp = false)
    (contextKept : contextAddress ∉ temps)
    (value : Word)
    (state : State) :
    Writes env code (.reg size register type) value state ↔
      (applyAll env.origin state code).get (mapRegType register type) =
        (RegisterAccess.ofType size type).merge
          (state.get (mapRegType register type)) value := by
  have exits := Environment.exits_straight computes.straight
    (permits.permitsAll state code)
  have others : ∀ reg, mapReg reg ≠ mapRegType register type ->
      (applyAll env.origin state code).get (mapReg reg) =
        state.get (mapReg reg) := by
    intro reg different
    apply computes.get
    simp only [List.mem_cons, not_or]
    refine ⟨different, fun member => ?_⟩
    have notGuest := guestFree _ member
    rw [isGuest_mapReg] at notGuest
    cases notGuest
  rw [← writtenRegisters_iff others value]
  constructor
  · rintro ⟨final, ends, writes⟩
    cases ends.unique exits
    exact writes.registers
  · intro registers
    refine ⟨_, exits, registers, computes.mem _ _, computes.get _ _ ?_⟩
    simp only [List.mem_cons, not_or]
    exact ⟨(ne_of_isGuest (isGuest_mapRegType _ _) (by decide)).symm,
      contextKept⟩

/-! ## Moves -/

/-- The instruction moves a register to a register: one of the same size, or a
shorter one that is extended. -/
structure RegisterMove (inst : Instruction) : Prop where
  moves : inst.instructionClass = .mov ∨ inst.instructionClass = .movzx ∨
    inst.instructionClass = .movsx
  destination : (inst.getOperand 0).isReg = true
  source : (inst.getOperand 1).isReg = true
  destinationValid : (inst.getOperand 0).valid = true
  sourceValid : (inst.getOperand 1).valid = true
  sameSize : inst.instructionClass = .mov ->
    (inst.getOperand 1).size = inst.destinationSize
  extended : inst.instructionClass ≠ .mov ->
    inst.destinationSize ≠ .byte ∧ (inst.getOperand 1).size ≠ .qword ∧
      (inst.getOperand 1).size.bytes ≤ inst.destinationSize.bytes

/-- The value of the source on x86, as a whole word. -/
def movedWord (inst : Instruction) (state : State) : Word :=
  extend (inst.instructionClass == .movsx)
    (inst.operandBits (inst.getOperand 1) (inst.getOperand 1).size state) 64

/-- The bits of the source are moved. -/
theorem movedWord_setWidth (inst : Instruction) (state : State) :
    (movedWord inst state).setWidth (inst.getOperand 1).size.bits =
      inst.operandBits (inst.getOperand 1) (inst.getOperand 1).size state :=
  setWidth_extend _ _ (by cases (inst.getOperand 1).size <;> decide)

/-- The bits that a move copies into its destination are the bits of the
source. -/
theorem merge_movedWord
    {inst : Instruction}
    {access : RegisterAccess}
    {op : Operand}
    {value : Word}
    (second : inst.getOperand 1 = op)
    (bits : access.bits = op.size.bits)
    (state : State)
    (same : value.setWidth op.size.bits =
      inst.operandBits op op.size state)
    (old : Word) :
    access.merge old value = access.merge old (movedWord inst state) := by
  apply access.merge_congr
  have moved := movedWord_setWidth inst state
  rw [second] at moved
  rw [bits, same, moved]

end Instruction

open Instruction

/-! ## `Mov` -/

namespace Mov

/-- A low byte that is moved to itself is zero. -/
def ByteKept (inst : Instruction) (state : State) : Prop :=
  ∀ register, inst.getOperand 0 = .reg .byte register .gpl ->
    inst.getOperand 1 = .reg .byte register .gpl ->
      (state.get (mapReg register)).setWidth 8 = 0#8

/-- A low byte that is moved to itself is cleared. -/
theorem moveToRegister_self
    {dest temp : Register}
    (destNonzero : dest ≠ .zero)
    (tempNonzero : temp ≠ .zero)
    (different : temp ≠ dest)
    (pc : Word)
    (state : State) :
    (applyAll pc state (moveToRegister dest dest .lbyte temp false)).get dest =
      RegisterAccess.lbyte.merge (state.get dest) 0 := by
  have cleared (old : Word) :
      (old &&& signedImm (-0x100 : BitVec 16)) |||
          ((old &&& signedImm (-0x100 : BitVec 16)) &&&
            signedImm (0xff : BitVec 16)) =
        RegisterAccess.lbyte.merge old 0 := by
    rw [byteMask.1, byteMask.2]
    apply BitVec.eq_of_getLsbD_eq
    intro index inside
    simp only [RegisterAccess.merge, BitVec.getLsbD_or, BitVec.getLsbD_and,
      BitVec.getLsbD_not, BitVec.getLsbD_append, BitVec.getLsbD_extractLsb',
      BitVec.getLsbD_setWidth, BitVec.getLsbD_allOnes]
    grind
  simp only [moveToRegister, Bool.false_eq_true, if_false, applyAll_cons,
    applyAll_nil, apply_andi, apply_or, State.set_get_self _ _ destNonzero,
    State.set_get_self _ _ tempNonzero, State.set_get_of_ne _ _ different.symm,
    cleared]

section Registers

variable {inst : Instruction} {size : OperandSize}
variable {register source : Fadec.Register}
variable {type sourceType : Fadec.RegisterType}
variable (first : inst.getOperand 0 = .reg size register type)
variable (second : inst.getOperand 1 = .reg size source sourceType)
variable (pc : Word) (state : State)

include first second

/-- A long register is copied as a whole, and cut to four bytes. -/
theorem generate_long
    (valid : (Operand.reg size register type).valid = true)
    (sourceValid : (Operand.reg size source sourceType).valid = true)
    (long : 4 ≤ size.bytes) :
    ComputesInto [mapRegType register type] (generate inst) ∧
      (applyAll pc state (generate inst)).get (mapRegType register type) =
        (RegisterAccess.ofType size type).merge
          (state.get (mapRegType register type))
          (state.get (mapRegType source sourceType)) := by
  obtain rfl := low_of_valid valid long
  obtain rfl := low_of_valid sourceValid long
  have nonzero : mapReg register ≠ .zero :=
    ne_of_isGuest (isGuest_mapReg register) (by decide)
  have half : ((32 : BitVec 8).setWidth 6).toNat = 32 := by decide
  cases size with
  | qword =>
      have code : generate inst = [mv (mapReg register) (mapReg source)] := by
        simp only [generate, first, second]
        rfl
      rw [code]
      refine ⟨ComputesInto.singleton rfl rfl List.mem_cons_self, ?_⟩
      simp only [applyAll_cons, applyAll_nil, apply_mv, mapRegType,
        State.set_get_self _ _ nonzero]
      rfl
  | dword =>
      have code : generate inst = [mv (mapReg register) (mapReg source),
          slli (mapReg register) (mapReg register) 32,
          srli (mapReg register) (mapReg register) 32] := by
        simp only [generate, first, second]
        rfl
      rw [code]
      refine ⟨?_, ?_⟩
      · repeat' first
          | exact ComputesInto.nil
          | refine ComputesInto.cons_iff.mpr
              ⟨Inst.computesInto_of_target rfl rfl List.mem_cons_self, ?_⟩
      · simp only [applyAll_cons, applyAll_nil, apply_mv, apply_slli,
          apply_srli, mapRegType, State.set_get_self _ _ nonzero, half]
        exact merge_dword _ _
  | word | byte => exact absurd long (by decide)

/-- A short register is merged into its destination. -/
theorem generate_short (short : size.bytes < 4) :
    let loaded := loadFromRegister (mapRegType source sourceType)
      (RegisterAccess.ofType size sourceType) .t0 false false false
    generate inst = loaded.1 ++
      moveToRegister (mapRegType register type) loaded.2
        (RegisterAccess.ofType size type) .t1 false := by
  have notQword : size ≠ .qword := by
    rintro rfl
    exact absurd short (by decide)
  cases size with
  | qword | dword => exact absurd short (by decide)
  | word | byte =>
      simp only [generate, first, second, translateDestination,
        translateOperand, ne_eq, notQword, not_false_eq_true, true_or, if_true,
        Bool.false_eq_true, false_and, if_false]

theorem generate_computesInto
    (valid : (Operand.reg size register type).valid = true)
    (sourceValid : (Operand.reg size source sourceType).valid = true) :
    ComputesInto [mapRegType register type, .t0, .t1] (generate inst) := by
  by_cases long : 4 ≤ size.bytes
  · exact (generate_long first second 0 ⟨fun _ => 0, fun _ => 0⟩ valid
      sourceValid long).1.mono (by simp)
  · rw [generate_short first second (by omega)]
    exact ComputesInto.append_iff.mpr
      ⟨(loadFromRegister_computesInto _ _ _ _).mono (by simp),
        (moveToRegister_computesInto _ _).mono (by simp)⟩

omit first in
/-- What is written to the destination instead of the moved word. -/
theorem merge_source
    (valid : (Operand.reg size register type).valid = true)
    {value : Word}
    (same : value.setWidth size.bits =
      inst.operandBits (.reg size source sourceType) size state)
    (old : Word) :
    (RegisterAccess.ofType size type).merge old value =
      (RegisterAccess.ofType size type).merge old (movedWord inst state) := by
  have bits : (RegisterAccess.ofType size type).bits = size.bits :=
    registerAccess_bits valid
  exact merge_movedWord second bits state same old

/-- A long source is copied as it is, whatever its upper half is. -/
theorem long_value
    (valid : (Operand.reg size register type).valid = true)
    (sourceValid : (Operand.reg size source sourceType).valid = true)
    (long : 4 ≤ size.bytes) :
    (applyAll pc state (generate inst)).get (mapRegType register type) =
      (RegisterAccess.ofType size type).merge
        (state.get (mapRegType register type)) (movedWord inst state) := by
  rw [(generate_long first second pc state valid sourceValid long).2]
  refine merge_source second state valid ?_ _
  obtain rfl := low_of_valid sourceValid long
  have part := RegisterAccess.setWidth_part (RegisterAccess.ofSize_ne_hbyte size)
    (state.get (mapReg source))
  rw [ofSize_bits] at part
  exact part.symm

/-- A short source that is not moved onto its own low byte is copied. -/
theorem short_value
    (valid : (Operand.reg size register type).valid = true)
    (sourceValid : (Operand.reg size source sourceType).valid = true)
    (short : size.bytes < 4)
    (apart : ¬ (size = .byte ∧ type = .gpl ∧ sourceType = .gpl ∧
      source = register)) :
    (applyAll pc state (generate inst)).get (mapRegType register type) =
      (RegisterAccess.ofType size type).merge
        (state.get (mapRegType register type)) (movedWord inst state) := by
  have ne : ∀ {temp : Register}, isGuest temp = false ->
      mapRegType register type ≠ temp ∧ mapRegType source sourceType ≠ temp :=
    fun free => ⟨ne_of_isGuest (isGuest_mapRegType _ _) free,
      ne_of_isGuest (isGuest_mapRegType _ _) free⟩
  obtain ⟨destZero, -⟩ := ne (by decide : isGuest .zero = false)
  obtain ⟨destT0, -⟩ := ne (by decide : isGuest .t0 = false)
  obtain ⟨destT1, sourceT1⟩ := ne (by decide : isGuest .t1 = false)
  have sourceBits : (RegisterAccess.ofType size sourceType).bits = size.bits :=
    registerAccess_bits sourceValid
  have computes := @loadFromRegister_computesInto
    (mapRegType source sourceType) .t0 (RegisterAccess.ofType size sourceType)
    false false false
  have low := @loadFromRegister_low (mapRegType source sourceType) .t0 pc state
    (by decide) (RegisterAccess.ofType size sourceType) false false
  have place : ∀ loaded : Register,
      loaded = (loadFromRegister (mapRegType source sourceType)
        (RegisterAccess.ofType size sourceType) .t0 false false false).2 ->
      Register.t1 ≠ loaded ∧ (RegisterAccess.ofType size type = .lbyte ->
        loaded ≠ mapRegType register type) := by
    intro loaded named
    by_cases high : RegisterAccess.ofType size sourceType = .hbyte
    · have temporary : loaded = .t0 := by
        rw [named]
        simp [loadFromRegister, high]
      rw [temporary]
      exact ⟨by decide, fun _ => destT0.symm⟩
    · have own : loaded = mapRegType source sourceType := by
        rw [named]
        simp [loadFromRegister, high]
      rw [own]
      refine ⟨sourceT1.symm, fun lowByte same => apart ?_⟩
      cases sourceType with
      | gph => exact absurd rfl high
      | gpl =>
          cases type with
          | gph => cases lowByte
          | gpl =>
              refine ⟨?_, rfl, rfl, mapReg_injective same⟩
              cases size with
              | byte => rfl
              | _ => cases lowByte
  obtain ⟨tempLoaded, loadedApart⟩ := place _ rfl
  rw [generate_short first second short, applyAll_append,
    moveToRegister_value _ _ destZero (by decide) destT1.symm tempLoaded
      loadedApart,
    computes.get _ _ (by simpa using destT0)]
  refine merge_source second state valid ?_ _
  rw [sourceBits] at low
  exact low

/-- The source is copied into the destination, except for a low byte that is
moved to itself. -/
theorem generate_value_iff
    (valid : (Operand.reg size register type).valid = true)
    (sourceValid : (Operand.reg size source sourceType).valid = true) :
    (applyAll pc state (generate inst)).get (mapRegType register type) =
        (RegisterAccess.ofType size type).merge
          (state.get (mapRegType register type)) (movedWord inst state) ↔
      ByteKept inst state := by
  by_cases itself : size = .byte ∧ type = .gpl ∧ sourceType = .gpl ∧
      source = register
  · obtain ⟨rfl, rfl, rfl, rfl⟩ := itself
    have kept : ByteKept inst state ↔
        0#8 = (state.get (mapReg source)).setWidth 8 := by
      constructor
      · intro kept
        exact (kept source first second).symm
      · intro low other same _
        rw [first] at same
        cases same
        exact low.symm
    have guest := isGuest_mapReg source
    have cleared := moveToRegister_self (ne_of_isGuest guest (by decide))
      (by decide : Register.t1 ≠ .zero)
      (ne_of_isGuest guest (by decide)).symm pc state
    have own := merge_source second state valid
      (RegisterAccess.setWidth_part (by decide : RegisterAccess.lbyte ≠ .hbyte)
        (state.get (mapReg source))).symm (state.get (mapReg source))
    change RegisterAccess.lbyte.merge _ _ =
      RegisterAccess.lbyte.merge _ _ at own
    rw [kept, generate_short first second (by decide)]
    change (applyAll pc state (moveToRegister (mapReg source) (mapReg source)
        .lbyte .t1 false)).get (mapReg source) =
      RegisterAccess.lbyte.merge (state.get (mapReg source))
        (movedWord inst state) ↔ _
    rw [cleared, ← own]
    exact RegisterAccess.merge_eq_iff _ _ _ _
  · have kept : ByteKept inst state := by
      intro other same sameSource
      rw [first] at same
      rw [second] at sameSource
      cases same
      cases sameSource
      exact absurd ⟨rfl, rfl, rfl, rfl⟩ itself
    refine iff_of_true ?_ kept
    by_cases long : 4 ≤ size.bytes
    · exact long_value first second pc state valid sourceValid long
    · exact short_value first second pc state valid sourceValid (by omega)
        itself

end Registers

end Mov

/-! ## `Movzx` and `Movsx` -/

namespace Instruction

/-- An extension to 64 bits leaves the register as the instruction does: the
bits that a shorter destination keeps are those that the extension has, and
nothing is extended into the upper half of a register of four bytes. -/
def ExtensionFits (inst : Instruction) (state : State) : Prop :=
  let source := inst.getOperand 1
  let negative := inst.instructionClass = .movsx ∧
    (inst.operandBits source source.size state).msb = true
  match inst.destinationSize with
  | .byte | .qword => True
  | .dword => ¬ negative
  | .word => (state.get inst.firstRegister).extractLsb' 16 48 =
      if negative then BitVec.allOnes 48 else 0

end Instruction

namespace Instruction

section Extensions

variable {inst : Instruction} {size : OperandSize}
variable {source : Fadec.Register} {type : Fadec.RegisterType}

/-- A register that is loaded into the destination with an extension. -/
def extensionCode
    (inst : Instruction)
    (size : OperandSize)
    (source : Fadec.Register)
    (type : Fadec.RegisterType)
    (signed : Bool) : List Inst × Register :=
  loadFromRegister (mapRegType source type) (RegisterAccess.ofType size type)
    inst.firstRegister false true signed

theorem ofType_ne_qword
    (short : size ≠ .qword)
    (type : Fadec.RegisterType) :
    RegisterAccess.ofType size type ≠ .qword := by
  cases type with
  | gph => exact RegisterAccess.noConfusion
  | gpl =>
      cases size <;> first
        | exact RegisterAccess.noConfusion
        | exact absurd rfl short

theorem extensionCode_eq
    (short : size ≠ .qword)
    (signed : Bool) :
    inst.extensionCode size source type signed =
      ([slli inst.firstRegister (mapRegType source type)
          (RegisterAccess.ofType size type).shifts.1,
        (if signed then srai else srli) inst.firstRegister inst.firstRegister
          (RegisterAccess.ofType size type).shifts.2], inst.firstRegister) := by
  simp only [extensionCode, loadFromRegister, if_true, ne_eq,
    ofType_ne_qword short type, not_false_eq_true]

/-- The extended register has the extended bits of the operand. -/
theorem extensionCode_value
    (valid : (Operand.reg size source type).valid = true)
    (short : size ≠ .qword)
    (nonzero : inst.firstRegister ≠ .zero)
    (signed : Bool)
    (pc : Word)
    (state : State) :
    (applyAll pc state (inst.extensionCode size source type signed).1).get
        inst.firstRegister =
      extend signed (inst.operandBits (.reg size source type) size state)
        64 := by
  have bits : (RegisterAccess.ofType size type).bits = size.bits :=
    registerAccess_bits valid
  have loaded := @loadFromRegister_full (mapRegType source type) _ nonzero
    (RegisterAccess.ofType size type) false signed pc state
  have place : (inst.extensionCode size source type signed).2 =
      inst.firstRegister := by
    rw [extensionCode_eq short]
  change (applyAll pc state (inst.extensionCode size source type signed).1).get
    (inst.extensionCode size source type signed).2 = _ at loaded
  rw [place] at loaded
  rw [loaded, bits]
  rfl

end Extensions

end Instruction

/-- The zero extension of a register. -/
theorem Movzx.generate_register
    {inst : Instruction}
    {size : OperandSize}
    {source : Fadec.Register}
    {type : Fadec.RegisterType}
    (second : inst.getOperand 1 = .reg size source type)
    (valid : (Operand.reg size source type).valid = true)
    (short : size ≠ .qword) :
    Movzx.generate inst = (inst.extensionCode size source type false).1 := by
  rw [extensionCode_eq short]
  simp only [Movzx.generate, second, Bool.false_eq_true, if_false]
  cases type with
  | gpl =>
      cases size with
      | qword => exact absurd rfl short
      | _ => rfl
  | gph =>
      simp only [Operand.valid, Bool.and_eq_true, beq_iff_eq] at valid
      rw [valid.1.1]
      rfl

namespace Movsx

/-- The sign extension of four bytes is one addition. -/
theorem generate_dword
    {inst : Instruction}
    {source : Fadec.Register}
    (second : inst.getOperand 1 = .reg .dword source .gpl)
    (nonzero : inst.firstRegister ≠ .zero)
    (pc : Word)
    (state : State) :
    (applyAll pc state (Movsx.generate inst)).get inst.firstRegister =
      extend true
        (inst.operandBits (.reg .dword source .gpl) .dword state) 64 := by
  simp only [generate, second, signExtendRegister, applyAll_cons, applyAll_nil,
    apply_addw, State.set_get_self _ _ nonzero, State.get_zero]
  have part := RegisterAccess.setWidth_part
    (by decide : RegisterAccess.dword ≠ .hbyte) (state.get (mapReg source))
  change _ = (BitVec.setWidth 32
    (RegisterAccess.dword.part (state.get (mapReg source)))).signExtend 64
  change BitVec.setWidth 32 _ = BitVec.setWidth 32 _ at part
  rw [part, sext]
  simp

/-- The sign extension of one or two bytes. -/
theorem generate_register
    {inst : Instruction}
    {size : OperandSize}
    {source : Fadec.Register}
    {type : Fadec.RegisterType}
    (second : inst.getOperand 1 = .reg size source type)
    (valid : (Operand.reg size source type).valid = true)
    (short : size.bytes < 4) :
    generate inst = (inst.extensionCode size source type true).1 := by
  rw [extensionCode_eq (by rintro rfl; exact absurd short (by decide))]
  simp only [generate, second, if_true]
  cases type with
  | gpl => cases size <;> first | rfl | exact absurd short (by decide)
  | gph =>
      simp only [Operand.valid, Bool.and_eq_true, beq_iff_eq] at valid
      rw [valid.1.1]
      rfl

end Movsx

namespace Instruction

/-- What is written behind a short destination is what the extension has
there. -/
theorem extensionFits_iff
    {inst : Instruction}
    {size : OperandSize}
    {register : Fadec.Register}
    {type : Fadec.RegisterType}
    (first : inst.getOperand 0 = .reg size register type)
    (valid : (Operand.reg size register type).valid = true)
    (extending : inst.instructionClass = .movzx ∨
      inst.instructionClass = .movsx)
    (long : size ≠ .byte)
    (shorter : (inst.getOperand 1).size.bytes ≤ size.bytes)
    (state : State) :
    inst.movedWord state =
        (RegisterAccess.ofType size type).merge
          (state.get inst.firstRegister) (inst.movedWord state) ↔
      inst.ExtensionFits state := by
  obtain rfl : type = .gpl := by
    cases type with
    | gpl => rfl
    | gph =>
        simp only [Operand.valid, Bool.and_eq_true, beq_iff_eq] at valid
        exact absurd valid.1.1 long
  have bits : (inst.getOperand 1).size.bits ≤ size.bits := by
    simp only [OperandSize.bits]
    omega
  have destination : inst.destinationSize = size := by
    rw [destinationSize, first]
    rfl
  have signed : (inst.instructionClass == .movsx) = true ↔
      inst.instructionClass = .movsx := by
    rcases extending with zero | sign
    · simp [zero]
    · simp [sign]
  unfold ExtensionFits
  rw [destination]
  cases size with
  | byte => exact absurd rfl long
  | qword => simp [RegisterAccess.ofType, RegisterAccess.ofSize,
      RegisterAccess.merge]
  | word =>
      refine (RegisterAccess.eq_merge_word_iff _ _).trans ?_
      rw [movedWord, @extract_extend _ 64 _ _ 16 48 bits (by decide)]
      simp only [signed]
  | dword =>
      refine (RegisterAccess.eq_merge_dword_iff _ _).trans ?_
      rw [movedWord, @extract_extend _ 64 _ _ 32 32 bits (by decide)]
      simp only [signed]
      split
      · rename_i negative
        simp [negative]
      · rename_i positive
        simp [positive]

/-- The register of the destination is the only one that is written, and has
the extended source. -/
theorem generate_extends
    {inst : Instruction}
    (move : inst.RegisterMove)
    (extending : inst.instructionClass = .movzx ∨
      inst.instructionClass = .movsx)
    (symbols : HostSymbols)
    (entries : Nat) :
    ∃ code, inst.generate symbols entries = some code ∧
      ComputesInto [inst.firstRegister] code ∧
      ∀ pc state, (applyAll pc state code).get inst.firstRegister =
        inst.movedWord state := by
  have notMov : inst.instructionClass ≠ .mov := by
    rcases extending with zero | sign
    · simp [zero]
    · simp [sign]
  obtain ⟨size, source, type, second⟩ := Operand.exists_reg move.source
  have valid := move.sourceValid
  have short := (move.extended notMov).2.1
  rw [second] at valid short
  change size ≠ .qword at short
  have guest : isGuest inst.firstRegister = true := by
    obtain ⟨_, register, _, first⟩ := Operand.exists_reg move.destination
    rw [firstRegister, first]
    exact isGuest_mapReg register
  have nonzero : inst.firstRegister ≠ .zero := ne_of_isGuest guest (by decide)
  have computes := fun signed => @loadFromRegister_computesInto
    (mapRegType source type) inst.firstRegister
    (RegisterAccess.ofType size type) false true signed
  have loaded := fun signed => @extensionCode_value inst size source type valid
    short nonzero signed
  rcases extending with zero | sign
  · refine ⟨Movzx.generate inst, by rw [generate, zero], ?_⟩
    have moved : ∀ state, inst.movedWord state =
        extend false (inst.operandBits (.reg size source type) size state)
          64 := by
      intro state
      rw [movedWord, zero, second]
      rfl
    rw [Movzx.generate_register second valid short]
    exact ⟨computes false, fun pc state =>
      (loaded false pc state).trans (moved state).symm⟩
  · refine ⟨Movsx.generate inst, by rw [generate, sign], ?_⟩
    have moved : ∀ state, inst.movedWord state =
        extend true (inst.operandBits (.reg size source type) size state)
          64 := by
      intro state
      rw [movedWord, sign, second]
      rfl
    by_cases dword : size = .dword
    · subst dword
      obtain rfl := low_of_valid valid (by decide)
      refine ⟨?_, fun pc state =>
        (Movsx.generate_dword second nonzero pc state).trans (moved state).symm⟩
      simp only [Movsx.generate, second, signExtendRegister]
      exact ComputesInto.singleton rfl rfl List.mem_cons_self
    · have few : size.bytes < 4 := by
        cases size with
        | dword => exact absurd rfl dword
        | qword => exact absurd rfl short
        | _ => decide
      rw [Movsx.generate_register second valid few]
      exact ⟨computes true, fun pc state =>
        (loaded true pc state).trans (moved state).symm⟩

/-- The rest of the destination keeps its bits, or is cleared, as on x86. -/
structure KeepsRest (inst : Instruction) (state : State) : Prop where
  moved : inst.instructionClass = .mov -> Mov.ByteKept inst state
  extended : inst.instructionClass ≠ .mov -> inst.ExtensionFits state

/-- The code of a move writes the moved word if and only if it keeps the rest
of the register. -/
theorem registerMove_writes_iff
    {env : Environment}
    (permits : env.PermitsEverything)
    {inst : Instruction}
    (move : inst.RegisterMove)
    (symbols : HostSymbols)
    (entries : Nat) :
    ∃ code, inst.generate symbols entries = some code ∧ ∀ state,
      (Writes env code (inst.getOperand 0) (inst.movedWord state) state ↔
        inst.KeepsRest state) := by
  obtain ⟨size, register, type, first⟩ := Operand.exists_reg move.destination
  obtain ⟨sourceSize, source, sourceType, second⟩ :=
    Operand.exists_reg move.source
  have valid := move.destinationValid
  have sourceValid := move.sourceValid
  rw [first] at valid
  rw [second] at sourceValid
  have destination : inst.destinationSize = size := by
    rw [destinationSize, first]
    rfl
  by_cases mov : inst.instructionClass = .mov
  · have same := move.sameSize mov
    rw [second, destination] at same
    change sourceSize = size at same
    subst same
    refine ⟨Mov.generate inst, by rw [generate, mov], fun state => ?_⟩
    rw [first, writes_iff permits
        (Mov.generate_computesInto first second valid sourceValid)
        (by decide) (by decide),
      Mov.generate_value_iff first second env.origin state valid sourceValid]
    constructor
    · intro kept
      exact ⟨fun _ => kept, fun notMov => absurd mov notMov⟩
    · intro kept
      exact kept.moved mov
  · have extending := move.moves.resolve_left mov
    obtain ⟨long, -, shorter⟩ := move.extended mov
    rw [destination] at long shorter
    obtain ⟨code, generated, computes, value⟩ :=
      generate_extends move extending symbols entries
    refine ⟨code, generated, fun state => ?_⟩
    obtain rfl : type = .gpl := by
      cases type with
      | gpl => rfl
      | gph =>
          simp only [Operand.valid, Bool.and_eq_true, beq_iff_eq] at valid
          exact absurd valid.1.1 long
    have place : inst.firstRegister = mapReg register := by
      rw [firstRegister, first]
    have fits := extensionFits_iff first valid extending long shorter state
    rw [place] at computes value fits
    change ComputesInto [mapRegType register .gpl] code at computes
    rw [first, writes_iff permits computes (by simp) (by simp)]
    change (applyAll env.origin state code).get (mapReg register) =
      (RegisterAccess.ofType size .gpl).merge (state.get (mapReg register))
        (inst.movedWord state) ↔ _
    rw [value]
    constructor
    · intro same
      exact ⟨fun isMov => absurd isMov mov, fun _ => fits.mp same⟩
    · intro kept
      exact fits.mpr (kept.extended mov)

/-- A move between registers leaves the registers, the flags and the memory as
x86 does if and only if a short extension agrees with the rest of its register
and a low byte that is moved to itself is zero. -/
theorem generate_moves_iff
    {env : Environment}
    (permits : env.PermitsEverything)
    {inst : Instruction}
    (move : inst.RegisterMove)
    (symbols : HostSymbols)
    (entries : Nat)
    (state : State) :
    (∃ code, inst.generate symbols entries = some code ∧
      Writes env code (inst.getOperand 0) (inst.movedWord state) state) ↔
      inst.KeepsRest state := by
  obtain ⟨code, generated, writes⟩ :=
    registerMove_writes_iff permits move symbols entries
  rw [← writes state, generated]
  constructor
  · rintro ⟨_, same, written⟩
    cases same
    exact written
  · intro written
    exact ⟨code, rfl, written⟩

/-- `movzx ax, bl` -/
def movzxAxBl : Instruction :=
  InstructionClass.movzx.construct
    { type := .movzx
      operands := [.reg .word 0 .gpl, .reg .byte 3 .gpl] }

theorem movzxAxBl_registerMove : movzxAxBl.RegisterMove where
  moves := Or.inr (Or.inl rfl)
  destination := rfl
  source := rfl
  destinationValid := rfl
  sourceValid := rfl
  sameSize := by decide
  extended := by decide

/-- The upper bits of rax are zero. -/
theorem generate_moves_iff_movzxAxBl :
    let state := (zeroState.set rax 0x1234).set (mapReg 3) 0x4587
    ∃ code, movzxAxBl.generate sampleSymbols 0 = some code ∧
      Writes Stub.environment code (movzxAxBl.getOperand 0)
        (movzxAxBl.movedWord state) state :=
  (generate_moves_iff (fun _ _ => rfl) movzxAxBl_registerMove sampleSymbols 0
    _).mpr {
      moved := fun mov => by cases mov
      extended := fun _ =>
        (show BitVec.extractLsb' 16 48 _ = ite _ _ _ by
          rw [if_neg fun negative => absurd negative.1 (by decide)]
          decide +kernel) }

/-- The upper bits of rax are lost. -/
theorem movzxAxBl_clears :
    ¬ ∃ code, movzxAxBl.generate sampleSymbols 0 = some code ∧
      Writes Stub.environment code (movzxAxBl.getOperand 0)
        (movzxAxBl.movedWord (zeroState.set rax 0x10000))
        (zeroState.set rax 0x10000) := by
  rintro ⟨code, generated, written⟩
  obtain ⟨_, same, writes⟩ := @registerMove_writes_iff Stub.environment
    (fun _ _ => rfl) _ movzxAxBl_registerMove sampleSymbols 0
  rw [generated] at same
  cases same
  have fits := ((writes _).mp written).extended (by decide)
  change BitVec.extractLsb' 16 48 (State.get _ rax) = ite _ _ _ at fits
  rw [if_neg fun negative => absurd negative.1 (by decide)] at fits
  revert fits
  decide +kernel

end Instruction

/-! ## `Lea` -/

namespace Lea

open Instruction

section Addresses

variable {inst : Instruction} {size sourceSize : OperandSize}
variable {register : Fadec.Register} {base : Option Fadec.Register}
variable (first : inst.getOperand 0 = .reg size register .gpl)
variable (second : inst.getOperand 1 = .mem sourceSize base)
variable (pc : Word) (state : State)

/-- The address is forced into the destination. -/
theorem translateMemory_forced
    (inst : Instruction)
    (op : Operand)
    (dst temp : Register) :
    (inst.translateMemory op dst temp true).2 = dst := by
  simp only [translateMemory_eq, true_and]
  split
  · rfl
  · split
    · rfl
    · rename_i same
      simpa using same

/-- The destination holds the address even if it is a register of the
address. -/
theorem forced_value
    (inst : Instruction)
    (op : Operand)
    (register : Fadec.Register)
    (pc : Word)
    (state : State) :
    (applyAll pc state
        (inst.translateMemory op (mapReg register) .t1 true).1).get
        (mapReg register) =
      inst.operandAddress op state := by
  have guest := isGuest_mapReg register
  have value := inst.translateMemory_value pc state
    (ne_of_isGuest guest (by decide)) (by decide)
    (ne_of_isGuest guest (by decide))
    (inst.not_clobbers_of_reserved op (by decide : isGuest .t1 = false)) true
  rw [translateMemory_forced] at value
  exact value

include first second

theorem generate_qword (whole : size = .qword) :
    generate inst = (inst.translateMemory (.mem sourceSize base)
      (mapReg register) .t1 true).1 := by
  subst whole
  simp only [generate, destinationSize, firstRegister, first, second,
    Operand.size]

/-- The code for four bytes cuts an address of eight bytes. -/
theorem generate_dword (half : size = .dword) :
    generate inst = (inst.translateMemory (.mem sourceSize base)
        (mapReg register) .t1 true).1 ++
      if inst.addressSizeQword then
        [slli (mapReg register) (mapReg register) 32,
          srli (mapReg register) (mapReg register) 32]
      else
        [] := by
  subst half
  simp only [generate, destinationSize, firstRegister, first, second,
    Operand.size]

theorem generate_word (short : size = .word) :
    let lea := inst.translateMemory (.mem sourceSize base) .t0 .t1 false
    generate inst = lea.1 ++
      moveToRegister (mapReg register) lea.2 .word .t2 false := by
  subst short
  simp only [generate, destinationSize, firstRegister, first, second,
    Operand.size]
  rfl

/-- The code writes the destination and temporaries. -/
theorem generate_computesInto
    (long : size ≠ .byte) :
    ComputesInto [mapReg register, .t0, .t1, .t2] (generate inst) := by
  have forced : ComputesInto [mapReg register, .t0, .t1, .t2]
      (inst.translateMemory (.mem sourceSize base) (mapReg register) .t1
        true).1 :=
    (inst.translateMemory_computesInto _ _).mono (by simp)
  cases size with
  | byte => exact absurd rfl long
  | qword =>
      rw [generate_qword first second rfl]
      exact forced
  | dword =>
      rw [generate_dword first second rfl]
      refine ComputesInto.append_iff.mpr ⟨forced, ?_⟩
      split
      · exact ComputesInto.cons_iff.mpr
          ⟨Inst.computesInto_of_target rfl rfl List.mem_cons_self,
            ComputesInto.singleton rfl rfl List.mem_cons_self⟩
      · exact ComputesInto.nil
  | word =>
      rw [generate_word first second rfl]
      exact ComputesInto.append_iff.mpr
        ⟨(inst.translateMemory_computesInto _ _).mono (by simp),
          (moveToRegister_computesInto _ _).mono (by simp)⟩

/-- An address of two bytes is merged from the register that it is in. -/
theorem word_value (short : size = .word) :
    (applyAll pc state (generate inst)).get (mapReg register) =
      RegisterAccess.word.merge (state.get (mapReg register))
        (inst.operandAddress (.mem sourceSize base) state) := by
  have guest := isGuest_mapReg register
  have ne : ∀ {temp : Register}, isGuest temp = false ->
      mapReg register ≠ temp := ne_of_isGuest guest
  have value := @translateMemory_value inst .t0 .t1 pc state
    (.mem sourceSize base) (by decide) (by decide) (by decide)
    (inst.not_clobbers_of_reserved _ (by decide)) false
  have computes := @translateMemory_computesInto inst .t0 .t1
    (.mem sourceSize base) false
  have place : (inst.translateMemory (.mem sourceSize base) .t0 .t1 false).2 ≠
      .t2 := by
    rcases @translateMemory_result inst (.mem sourceSize base) .t0 .t1
      (by decide) false with zero | guest | member
    · rw [zero]
      decide
    · exact ne_of_isGuest guest (by decide)
    · rw [List.mem_singleton.mp member]
      decide
  rw [generate_word first second short, applyAll_append,
    moveToRegister_value _ _ (ne (by decide)) (by decide) (ne (by decide)).symm
      place.symm (by simp),
    value, computes.get _ _ (by simp [ne (by decide : isGuest .t0 = false),
      ne (by decide : isGuest .t1 = false)])]

/-- The address is written to the part of the destination that has its
size. -/
theorem generate_value (long : size ≠ .byte) :
    (applyAll pc state (generate inst)).get (mapReg register) =
      (RegisterAccess.ofSize size).merge (state.get (mapReg register))
        (inst.operandAddress (.mem sourceSize base) state) := by
  have forced := forced_value inst (.mem sourceSize base) register pc state
  have nonzero : mapReg register ≠ .zero :=
    ne_of_isGuest (isGuest_mapReg register) (by decide)
  cases size with
  | byte => exact absurd rfl long
  | qword =>
      rw [generate_qword first second rfl, forced]
      rfl
  | word => exact word_value first second pc state rfl
  | dword =>
      rw [generate_dword first second rfl, applyAll_append]
      cases wide : inst.addressSizeQword with
      | true =>
          simp only [if_true, applyAll_cons, applyAll_nil, apply_slli,
            apply_srli, State.set_get_self _ _ nonzero, forced, truncate_eq]
          rfl
      | false =>
          -- a short address has been cut already
          have cut : inst.operandAddress (.mem sourceSize base) state =
              ((inst.linearAddress (.mem sourceSize base) state).setWidth
                32).setWidth 64 := by
            simp [operandAddress, truncateAddress, wide]
          simp only [Bool.false_eq_true, if_false, applyAll_nil, forced]
          change _ = BitVec.setWidth 64 (BitVec.setWidth 32 _)
          rw [cut, BitVec.setWidth_setWidth_of_le _ (by decide : 32 ≤ 64),
            BitVec.setWidth_eq]

end Addresses

/-- The effective address of an operand is written to the destination, and no
other register of the guest, no memory and no flag is changed.  The address
may be made of the destination itself. -/
theorem generate_writes
    {env : Environment}
    (permits : env.PermitsEverything)
    (symbols : HostSymbols)
    (entries : Nat)
    {inst : Instruction}
    (lea : inst.instructionClass = .lea)
    {size sourceSize : OperandSize}
    (long : size ≠ .byte)
    {register : Fadec.Register}
    {base : Option Fadec.Register}
    (first : inst.getOperand 0 = .reg size register .gpl)
    (second : inst.getOperand 1 = .mem sourceSize base)
    (state : State) :
    ∃ code, inst.generate symbols entries = some code ∧
      Writes env code (inst.getOperand 0)
        (inst.operandAddress (inst.getOperand 1) state) state := by
  refine ⟨Lea.generate inst, by rw [Instruction.generate, lea], ?_⟩
  have computes : ComputesInto
      [mapRegType register .gpl, .t0, .t1, .t2] (Lea.generate inst) :=
    generate_computesInto first second long
  rw [first, second, writes_iff permits computes (by simp) (by decide)]
  exact generate_value first second env.origin state long

/-- `lea eax, [rax + rax * 2 + 0x800]` -/
def leaEaxRax : Instruction :=
  InstructionClass.lea.construct
    { type := .lea
      operands := [.reg .dword 0 .gpl, .mem .dword (some 0)]
      indexRegister := some 0
      indexScale := 1
      displacement := 0x800 }

/-- The address does not fit into the destination. -/
theorem generate_writes_leaEaxRax :
    let state := zeroState.set rax 0x123456789
    ∃ code, leaEaxRax.generate sampleSymbols 0 = some code ∧
      Writes Stub.environment code (leaEaxRax.getOperand 0)
        (leaEaxRax.operandAddress (leaEaxRax.getOperand 1) state) state :=
  generate_writes (fun _ _ => rfl) sampleSymbols 0 rfl (by decide) rfl rfl _

end Lea

end Oxtra

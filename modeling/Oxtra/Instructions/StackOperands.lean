import Oxtra.Instruction.ExtendedOperands
import Oxtra.Instruction.Modifications
import Oxtra.Instructions.DirectLoads

/-!
# Operands and the stack pointer

An operand of eight bytes that is loaded behind a move of the stack pointer is
the operand in front of the move if it does not use the stack pointer.
-/

namespace Oxtra

open RiscV
open Encoding
open Helper
open Fadec (Operand OperandSize)

namespace Instruction

variable (inst : Instruction)

/-! ## Uses of the stack pointer -/

/-- The stack pointer of x86. -/
def stackRegister : Fadec.Register := 4

/-- The operand is the stack pointer, or its address is made of it. -/
def UsesStackPointer : Operand -> Prop
  | .reg _ register type => mapRegType register type = rsp
  | .mem _ base =>
      base = some stackRegister ∨ inst.indexRegister = some stackRegister
  | _ => False

/-- The state with another stack pointer. -/
def movedStack (amount : Word) (state : State) : State :=
  state.set rsp (state.get rsp + amount)

theorem movedStack_rsp (amount : Word) (state : State) :
    (movedStack amount state).get rsp = state.get rsp + amount :=
  State.set_get_self _ _ (by decide)

theorem movedStack_get
    (amount : Word)
    (state : State)
    {register : Register}
    (other : register ≠ rsp) :
    (movedStack amount state).get register = state.get register :=
  State.set_get_of_ne _ _ other

/-- What an address moves with the stack pointer. -/
def addressShift (amount : Word) (base : Option Fadec.Register) : Word :=
  (if base = some stackRegister then amount else 0) +
    (if inst.indexRegister = some stackRegister then amount else 0) <<<
      inst.indexScale.toNat

theorem registerValue_movedStack
    (amount : Word)
    (state : State)
    (register : Option Fadec.Register) :
    registerValue (movedStack amount state) register =
      registerValue state register +
        if register = some stackRegister then amount else 0 := by
  cases register with
  | none => simp [registerValue]
  | some register =>
      by_cases isStack : register = stackRegister
      · subst isStack
        rw [if_pos rfl]
        exact movedStack_rsp amount state
      · have other : mapReg register ≠ rsp := fun same =>
          isStack (mapReg_injective same)
        have notStack : some register ≠ some stackRegister := by
          simpa using isStack
        rw [if_neg notStack, add_zero]
        exact movedStack_get amount state other

theorem linearAddress_movedStack
    (amount : Word)
    (state : State)
    (size : OperandSize)
    (base : Option Fadec.Register) :
    inst.linearAddress (.mem size base) (movedStack amount state) =
      inst.linearAddress (.mem size base) state +
        inst.addressShift amount base := by
  simp only [linearAddress, scaledIndex, baseRegister,
    registerValue_movedStack, BitVec.shiftLeft_add_distrib, addressShift]
  abel

/-- A push or a pop moves every address that uses the stack pointer, also in
its lower half. -/
theorem addressShift_eq_zero_iff
    {amount : Word}
    (byWord : amount = 8 ∨ amount = -8)
    (size : OperandSize)
    (base : Option Fadec.Register) :
    (inst.addressShift amount base).setWidth 32 = 0 ↔
      ¬ inst.UsesStackPointer (.mem size base) := by
  have scaled : ∀ scale : BitVec 2, ∀ atBase atIndex : Bool,
      (((if atBase then amount else 0) +
        (if atIndex then amount else 0) <<< scale.toNat).setWidth 32 = 0 ↔
      atBase = false ∧ atIndex = false) := by
    rcases byWord with rfl | rfl <;> decide
  have shifted := scaled inst.indexScale (base = some stackRegister)
    (inst.indexRegister = some stackRegister)
  simp only [decide_eq_true_eq, decide_eq_false_iff_not] at shifted
  rw [addressShift, shifted, UsesStackPointer, not_or]

/-- Truncation keeps the lower half of an address. -/
theorem truncateAddress_setWidth (address : Word) :
    (inst.truncateAddress address).setWidth 32 = address.setWidth 32 := by
  unfold truncateAddress
  split
  · rfl
  · rw [BitVec.setWidth_setWidth_of_le _ (by decide), BitVec.setWidth_eq]

theorem accessedAddress_setWidth (op : Operand) (state : State) :
    (inst.accessedAddress op state).setWidth 32 =
      (inst.linearAddress op state).setWidth 32 := by
  unfold accessedAddress
  split
  · rfl
  · exact inst.truncateAddress_setWidth _

section Moved

variable {inst} {amount : Word} (byWord : amount = 8 ∨ amount = -8)
variable (state : State) (size : OperandSize) (base : Option Fadec.Register)

include byWord

/-- An address whose lower half is the same does not use the stack pointer. -/
theorem not_usesStackPointer
    (same : (inst.linearAddress (.mem size base)
        (movedStack amount state)).setWidth 32 =
      (inst.linearAddress (.mem size base) state).setWidth 32) :
    ¬ inst.UsesStackPointer (.mem size base) := by
  rw [linearAddress_movedStack, BitVec.setWidth_add _ _ (by decide)] at same
  exact (inst.addressShift_eq_zero_iff byWord size base).mp
    (BitVec.add_right_eq_self.mp same)

omit byWord in
theorem linearAddress_unmoved
    (unused : ¬ inst.UsesStackPointer (.mem size base)) :
    inst.linearAddress (.mem size base) (movedStack amount state) =
      inst.linearAddress (.mem size base) state := by
  obtain ⟨notBase, notIndex⟩ := not_or.mp unused
  rw [linearAddress_movedStack, addressShift, if_neg notBase,
    if_neg notIndex]
  simp

/-- An access with a moved stack pointer has the address of x86 if and only if
the operand does not use the stack pointer. -/
theorem accessedAddress_movedStack_iff :
    inst.accessedAddress (.mem size base) (movedStack amount state) =
        inst.operandAddress (.mem size base) state ↔
      ¬ inst.UsesStackPointer (.mem size base) ∧
        inst.AddressFits (.mem size base) state := by
  constructor
  · intro same
    have unused : ¬ inst.UsesStackPointer (.mem size base) := by
      apply not_usesStackPointer byWord state
      rw [← accessedAddress_setWidth, same, operandAddress,
        truncateAddress_setWidth]
    refine ⟨unused, (inst.accessedAddress_eq_iff _ state).mp ?_⟩
    rw [← same, accessedAddress, accessedAddress, operandAddress,
      operandAddress, linearAddress_unmoved state size base unused]
  · rintro ⟨unused, fits⟩
    rw [← (inst.accessedAddress_eq_iff _ state).mpr fits, accessedAddress,
      accessedAddress, operandAddress, operandAddress,
      linearAddress_unmoved state size base unused]

theorem operandAddress_movedStack_iff :
    inst.operandAddress (.mem size base) state =
        inst.operandAddress (.mem size base) (movedStack amount state) ↔
      ¬ inst.UsesStackPointer (.mem size base) := by
  constructor
  · intro same
    apply not_usesStackPointer byWord state
    rw [← inst.truncateAddress_setWidth, ← operandAddress, ← same,
      operandAddress, truncateAddress_setWidth]
  · intro unused
    rw [operandAddress, operandAddress,
      linearAddress_unmoved state size base unused]

end Moved

/-! ## Loaded operands -/

/-- An operand of eight bytes in a register, in memory or in the instruction,
without an override of its segment. -/
structure LongOperand (op : Operand) : Prop where
  size : op.size = .qword
  valid : op.valid = true
  valued : op ≠ .none
  noOverride : inst.NoOverride

/-- The address that a load of an operand accesses. -/
def accessedLoads (op : Operand) (state : State) : List Access :=
  match op with
  | .mem size _ => [.load (inst.accessedAddress op state) size.bytes]
  | _ => []

/-- The word that a load of an operand of eight bytes finds. -/
def accessedWord (op : Operand) (state : State) : Word :=
  match op with
  | .mem .. => state.mem.load (inst.accessedAddress op state) 8
  | op => inst.operandValue op state

section LongOperand

variable {inst} {op : Operand} (long : inst.LongOperand op)

include long

theorem LongOperand.operandValue_reg
    {size : OperandSize}
    {register : Fadec.Register}
    {type : Fadec.RegisterType}
    (isReg : op = .reg size register type)
    (state : State) :
    inst.operandValue op state = state.get (mapRegType register type) := by
  obtain ⟨size, valid, -, -⟩ := long
  subst isReg
  cases size
  obtain rfl := low_of_valid valid (by decide)
  rfl

theorem LongOperand.accessed_mem_iff
    {size : OperandSize}
    {base : Option Fadec.Register}
    (isMem : op = .mem size base)
    (before state : State) :
    (inst.accessedLoads op before = inst.loadAccesses op state ∧
        inst.accessedWord op before = inst.operandValue op state) ↔
      inst.accessedAddress op before = inst.operandAddress op state ∧
        before.mem.load (inst.operandAddress op state) 8 =
          state.mem.load (inst.operandAddress op state) 8 := by
  have size := long.size
  subst isMem
  cases size
  simp only [accessedLoads, loadAccesses, accessedWord, operandValue,
    long.noOverride.guestAddress, List.cons.injEq, and_true,
    Access.load.injEq]
  constructor
  · rintro ⟨address, word⟩
    rw [address] at word
    exact ⟨address, word⟩
  · rintro ⟨address, word⟩
    rw [address]
    exact ⟨rfl, word⟩

/-- Behind a move of the stack pointer the code reads the operand of x86 if and
only if the operand does not use the stack pointer, its address is not longer
than the address size, and its memory is the same. -/
theorem LongOperand.accessed_movedStack_iff
    {amount : Word}
    (byWord : amount = 8 ∨ amount = -8)
    {before state : State}
    (registers : ∀ reg, before.get (mapReg reg) =
      (movedStack amount state).get (mapReg reg)) :
    (inst.accessedLoads op before = inst.loadAccesses op state ∧
        inst.accessedWord op before = inst.operandValue op state) ↔
      ¬ inst.UsesStackPointer op ∧ (op.isMem = true ->
        inst.AddressFits op state ∧
          before.mem.load (inst.operandAddress op state) 8 =
            state.mem.load (inst.operandAddress op state) 8) := by
  cases op with
  | none => exact absurd rfl long.valued
  | imm size => simp [accessedLoads, loadAccesses, accessedWord,
      operandValue, UsesStackPointer, Operand.isMem]
  | mem size base =>
      rw [long.accessed_mem_iff rfl, inst.accessedAddress_congr registers,
        accessedAddress_movedStack_iff byWord, and_assoc]
      simp [Operand.isMem]
  | reg size register type =>
      obtain ⟨own, mapped⟩ : ∃ reg, mapReg reg = mapRegType register type := by
        cases type with
        | gpl => exact ⟨register, rfl⟩
        | gph => exact ⟨register - 4, rfl⟩
      simp only [accessedLoads, loadAccesses, accessedWord, true_and,
        Operand.isMem, Bool.false_eq_true, false_implies, and_true,
        UsesStackPointer]
      rw [long.operandValue_reg rfl, long.operandValue_reg rfl, ← mapped,
        registers]
      by_cases isStack : mapReg own = rsp
      · rw [isStack, movedStack_rsp]
        have moved : amount ≠ 0 := by
          rcases byWord with rfl | rfl <;> decide
        simpa using moved
      · rw [movedStack_get _ _ isStack]
        simp [isStack]

/-- Where the stack pointer has not been moved, the address decides. -/
theorem LongOperand.accessed_iff (state : State) :
    (inst.accessedLoads op state = inst.loadAccesses op state ∧
        inst.accessedWord op state = inst.operandValue op state) ↔
      (op.isMem = true -> inst.AddressFits op state) := by
  cases op with
  | mem size base =>
      rw [long.accessed_mem_iff rfl, accessedAddress_eq_iff]
      simp [Operand.isMem, AddressFits]
  | _ => simp [accessedLoads, loadAccesses, accessedWord, operandValue,
      Operand.isMem]

section Loaded

variable {tempA tempB : Register}
variable (scratchA : Scratch tempA) (scratchB : Scratch tempB)
variable (freeA : isGuest tempA = false) (freeB : isGuest tempB = false)
variable (different : tempA ≠ tempB)
variable (modifiable : Bool) (pc : Word) (state : State)

/-- The code that loads an operand of eight bytes. -/
def translateLong
    (inst : Instruction)
    (op : Operand)
    (tempA tempB : Register)
    (modifiable : Bool) : Translation :=
  inst.translateOperand op tempA tempB modifiable false false false

omit long in
theorem translateLong_computesInto (notMem : op.isMem = false) :
    ComputesInto [tempA]
      (inst.translateLong op tempA tempB modifiable).code :=
  inst.translateOperand_computesInto notMem _ _ _ _ _ _

omit long in
theorem translateLong_straight :
    ∀ written ∈ (inst.translateLong op tempA tempB modifiable).code,
      written.isStraight = true := by
  by_cases isMem : op.isMem = true
  · cases op with
    | mem size base => exact inst.readFromMemory_straight _ _ _
    | _ => cases isMem
  · exact (translateLong_computesInto modifiable
      (by simpa using isMem)).straight

/-- The word is in the temporary, or it stays in a register of the guest. -/
theorem translateLong_register :
    let value := (inst.translateLong op tempA tempB modifiable).value
    value = tempA ∨ modifiable = false ∧ isGuest value = true := by
  have size := long.size
  cases op with
  | none => exact absurd rfl long.valued
  | mem size base => exact Or.inl rfl
  | imm size => exact Or.inl rfl
  | reg size register type =>
      cases size
      obtain rfl := low_of_valid long.valid (by decide)
      cases modifiable with
      | true => exact Or.inl rfl
      | false => exact Or.inr ⟨rfl, isGuest_mapReg register⟩

include scratchA scratchB freeA freeB different

omit long in
theorem translateLong_get
    {register : Register}
    (notA : register ≠ tempA)
    (notB : register ≠ tempB) :
    (applyAll pc state
        (inst.translateLong op tempA tempB modifiable).code).get register =
      state.get register := by
  by_cases isMem : op.isMem = true
  · cases op with
    | mem size base =>
        exact @translateExtended_get inst (.mem size base) tempA tempB scratchA
          scratchB freeA freeB different modifiable false pc state _
          notA notB
    | _ => cases isMem
  · exact (translateLong_computesInto modifiable (by simpa using isMem)).get
      pc state (by simpa using notA)

omit long in
theorem translateLong_mem :
    (applyAll pc state
        (inst.translateLong op tempA tempB modifiable).code).mem =
      state.mem := by
  by_cases isMem : op.isMem = true
  · cases op with
    | mem size base =>
        exact @translateExtended_mem inst (.mem size base) tempA tempB scratchA
          scratchB freeA freeB different modifiable false pc state
    | _ => cases isMem
  · exact (translateLong_computesInto modifiable (by simpa using isMem)).mem
      pc state

/-- The base of the access, with the displacement of the access. -/
theorem readBase_reached :
    (applyAll pc state (inst.readBase op tempA tempB).1).get
          (inst.readBase op tempA tempB).2 +
        signedImm inst.operationDisplacement =
      inst.accessedAddress op state := by
  have reached := @readBase_accessed inst op tempA tempB scratchA scratchB
    freeA freeB different pc state
  rw [reached, long.noOverride.segmentBase]
  exact add_zero _

theorem translateLong_accesses :
    accessesApart contextAddress (Environment.straightTrace pc state
        (inst.translateLong op tempA tempB modifiable).code) =
      inst.accessedLoads op state := by
  by_cases isMem : op.isMem = true
  · cases op with
    | mem size base =>
        exact inst.readFromMemory_accesses pc state scratchA scratchB
          (readBase_reached long scratchA scratchB freeA freeB different pc
            state) false
    | _ => cases isMem
  · rw [(translateLong_computesInto modifiable
      (by simpa using isMem)).accessesApart]
    cases op with
    | mem size base => exact absurd rfl isMem
    | _ => rfl

/-- The operand is loaded from where it is accessed. -/
theorem translateLong_value :
    let loaded := inst.translateLong op tempA tempB modifiable
    (applyAll pc state loaded.code).get loaded.value =
      inst.accessedWord op state := by
  have size := long.size
  cases op with
  | none => exact absurd rfl long.valued
  | mem size base =>
      cases size
      have applied := inst.readFromMemory_apply pc state
        (readBase_reached long scratchA scratchB freeA freeB different pc
          state) false
      change (applyAll pc state
        (inst.readFromMemory _ tempA tempB false).1).get tempA = _
      rw [applied, State.set_get_self _ _ scratchA.1]
      rfl
  | imm size =>
      cases size
      have value := inst.translateOperand_value pc state (Or.inr rfl)
        (rfl : (Operand.imm .qword).valid = true) scratchA.1 tempB modifiable
        false
      change BitVec.setWidth 64 _ = BitVec.setWidth 64 _ at value
      rw [BitVec.setWidth_eq, BitVec.setWidth_eq] at value
      exact value
  | reg size register type =>
      cases size
      have value := inst.translateOperand_value pc state (Or.inl rfl)
        long.valid scratchA.1 tempB modifiable false
      change BitVec.setWidth 64 _ = BitVec.setWidth 64 _ at value
      rw [BitVec.setWidth_eq, BitVec.setWidth_eq] at value
      exact value

/-- The word is loaded into the temporary by this access. -/
theorem translateLong_loads :
    loadsInto tempA (Environment.straightTrace pc state
        (inst.translateLong op tempA tempB modifiable).code) =
      inst.accessedLoads op state := by
  by_cases isMem : op.isMem = true
  · cases op with
    | mem size base =>
        have computes : ComputesInto [tempB, tempA]
            (inst.readBase (.mem size base) tempA tempB).1 := by
          rw [long.noOverride.readBase_eq]
          exact inst.readAddress_computesInto tempA tempB
        have hidden : loadsInto tempA (Environment.straightTrace pc state
            (inst.readBase (.mem size base) tempA tempB).1) = [] :=
          loadsInto_eq_nil fun visit member => Or.inl
            (computes.base_none _ (mem_code_of_mem_straightTrace member))
        have reached := readBase_reached long scratchA scratchB freeA freeB
          different pc state
        change loadsInto tempA (Environment.straightTrace pc state
          (inst.readFromMemory _ tempA tempB false).1) = _
        rw [readFromMemory_eq, Environment.straightTrace_append,
          loadsInto_append, hidden, loadOperand_eq]
        simp only [Environment.straightTrace, loadsInto, List.filterMap_cons,
          List.filterMap_nil, Encoding.load, Inst.target, if_true, Inst.access,
          operandLoad_bytes, List.nil_append]
        rw [effectiveAddress, accessedLoads, ← reached,
          ← signedImm_setWidth inst.operationDisplacement
            (by decide : 12 ≤ 16)]
        rfl
    | _ => cases isMem
  · have computes := @translateLong_computesInto inst op tempA tempB modifiable
      (by simpa using isMem)
    rw [loadsInto_eq_nil fun visit member => Or.inl
      (computes.base_none _ (mem_code_of_mem_straightTrace member))]
    cases op with
    | mem size base => exact absurd rfl isMem
    | _ => rfl

end Loaded

end LongOperand

/-! ## What the guest sees -/

/-- The guest cannot tell two states apart. -/
structure SameGuest (first second : State) : Prop where
  registers : ∀ reg, first.get (mapReg reg) = second.get (mapReg reg)
  memory : first.mem = second.mem
  context : first.get contextAddress = second.get contextAddress

/-- The store of a word of eight bytes. -/
def storedWord (address value : Word) : Access :=
  .store address 8 (value.toNat % 256 ^ 8)

theorem storedWord_inj {firstAddress secondAddress first second : Word} :
    storedWord firstAddress first = storedWord secondAddress second ↔
      firstAddress = secondAddress ∧ first = second := by
  have firstBound : first.toNat < 256 ^ 8 := first.isLt
  have secondBound : second.toNat < 256 ^ 8 := second.isLt
  rw [storedWord, storedWord, Access.store.injEq,
    Nat.mod_eq_of_lt firstBound, Nat.mod_eq_of_lt secondBound,
    BitVec.toNat_inj]
  simp

end Instruction

end Oxtra

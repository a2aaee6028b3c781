import Oxtra.Instruction.Accesses

/-!
# The address computations agree

Reading and writing an operand compute the sum of base and index by themselves
when the displacement is small.  Unlike `translate_memory` they do not cut the
address to an address size of four bytes.
-/

namespace Oxtra
namespace Instruction

open RiscV
open Encoding
open Helper
open Fadec (Operand OperandSize)

/-- Neither the base nor the index of an operand is mapped to the register. -/
def Apart (inst : Instruction) (op : Operand) (register : Register) : Prop :=
  ∀ guest, baseRegister op = some guest ∨ inst.indexRegister = some guest ->
    mapReg guest ≠ register

theorem Apart.not_clobbers
    {inst : Instruction}
    {op : Operand}
    {register : Register}
    (apart : inst.Apart op register) :
    ¬ inst.Clobbers op register := by
  unfold Clobbers
  split
  · rename_i base index found _
    exact fun both => apart base (Or.inl found) both.2.symm
  · rename_i base found _
    exact fun both => apart base (Or.inl found) both.2.symm
  · rename_i index _ found
    exact fun all => apart index (Or.inr found) all.2.2.symm
  · exact id

/-- The three ways to compute the address of an operand agree in a state:
`translate_memory` computes the address, and a read and a write of the operand
access this address and no other. -/
structure AddressesAgree
    (inst : Instruction)
    (op : Operand)
    (tempA tempB : Register)
    (pc : Word)
    (state : State) : Prop where
  translate (forceDst : Bool) :
    (applyAll pc state (inst.translateMemory op tempA tempB forceDst).1).get
        (inst.translateMemory op tempA tempB forceDst).2 =
      inst.operandAddress op state
  read (signExtended : Bool) :
    (accessesApart contextAddress (Environment.straightTrace pc state
        (inst.readFromMemory op tempA tempB signExtended).1)).map
          Access.address =
      [inst.operandAddress op state]
  write (src : Register) : src ≠ tempA -> src ≠ tempB ->
    (accessesApart contextAddress (Environment.straightTrace pc state
        (inst.writeToMemory op src tempA tempB .zero))).map Access.address =
      [inst.operandAddress op state]

/-- They agree, unless a small displacement belongs to an address that is
longer than the address size. -/
theorem addressesAgree_iff
    (inst : Instruction)
    (op : Operand)
    (noOverride : inst.segment ≠ .fs ∧ inst.segment ≠ .gs)
    (tempA tempB : Register)
    (scratchA : Scratch tempA)
    (scratchB : Scratch tempB)
    (different : tempA ≠ tempB)
    (apartA : inst.Apart op tempA)
    (apartB : inst.Apart op tempB)
    (pc : Word)
    (state : State) :
    inst.AddressesAgree op tempA tempB pc state ↔
      (inst.smallDisplacement = true -> inst.addressSizeQword = false ->
        (inst.linearAddress op state).toNat < 2 ^ 32) := by
  have noSegment : inst.segmentBase state = 0#64 :=
    NoOverride.segmentBase noOverride state
  have baseA : ∀ base ∈ baseRegister op, mapReg base ≠ tempA :=
    fun base found => apartA base (Or.inl found)
  have baseB : ∀ base ∈ baseRegister op, mapReg base ≠ tempB :=
    fun base found => apartB base (Or.inl found)
  have read := inst.address_add state (inst.readBase_value pc state scratchA
    scratchB different.symm baseB fun _ => apartA.not_clobbers)
  have write := inst.address_add state (inst.writeBase_value pc state scratchA
    scratchB different baseB fun _ => apartB.not_clobbers)
  rw [noSegment, BitVec.add_zero] at read write
  rw [← accessedAddress_eq_iff]
  constructor
  · intro agree
    have accessed := agree.read false
    rw [inst.readFromMemory_accesses pc state scratchA scratchB read]
      at accessed
    simpa [Access.address] using accessed
  · intro same
    refine ⟨?_, ?_, ?_⟩
    · intro forceDst
      exact inst.translateMemory_value pc state scratchA.1 scratchB.1 different
        apartB.not_clobbers forceDst
    · intro signExtended
      rw [inst.readFromMemory_accesses pc state scratchA scratchB read, same]
      rfl
    · intro src srcA srcB
      have visible : Register.zero ≠ contextAddress := by decide
      rw [inst.writeToMemory_accesses pc state scratchA scratchB visible srcA
        srcB write, same]
      rfl

/-! ## Stores without an override -/

section Stores

variable {inst : Instruction} {op : Operand} {tempA tempB : Register}
variable (noOverride : inst.NoOverride)

include noOverride

theorem NoOverride.writeBase_eq (address : Register) :
    inst.writeBase op tempA tempB address =
      inst.writeAddress op tempA tempB address := by
  rw [writeBase, handleSegmentOverride_eq,
    if_neg (not_not_intro noOverride.segmentOffset), List.append_nil]

variable (pc : Word) (state : State)
variable (scratchA : Scratch tempA) (scratchB : Scratch tempB)
variable (different : tempA ≠ tempB) (guestFree : isGuest tempB = false)

include scratchA scratchB different guestFree

/-- The address of a store. -/
theorem NoOverride.writeBase_accessed :
    (applyAll pc state (inst.writeBase op tempA tempB .zero).1).get
          (inst.writeBase op tempA tempB .zero).2 +
        signedImm inst.operationDisplacement =
      inst.accessedAddress op state := by
  have reached := inst.address_add state (inst.writeBase_value pc state
    scratchA scratchB different
    (fun base _ => ne_of_isGuest (isGuest_mapReg base) guestFree)
    fun _ => inst.not_clobbers_of_reserved op guestFree)
  rwa [noOverride.segmentBase, BitVec.add_zero] at reached

/-- The first temporary is overwritten by an address that has to be
computed. -/
theorem NoOverride.writeBase_getA :
    (applyAll pc state (inst.writeBase op tempA tempB .zero).1).get tempA =
      if inst.computesAddress op then
        inst.partialAddress op state
      else
        state.get tempA := by
  have value := inst.writeAddress_value pc state scratchA.1 scratchB.1
    different (fun base (_ : base ∈ baseRegister op) =>
      ne_of_isGuest (isGuest_mapReg base) guestFree)
    fun _ => inst.not_clobbers_of_reserved op guestFree
  have code := inst.writeAddress_eq op tempA tempB .zero
  rw [if_neg (not_not_intro rfl)] at code
  rw [noOverride.writeBase_eq]
  by_cases small : inst.smallDisplacement = true
  · rw [if_pos small] at code
    rcases inst.simpleAddress_cases small op tempA tempB with
      ⟨computes, result⟩ | ⟨known, nothing⟩
    · rw [if_pos computes, ← value, code, result]
    · rw [if_neg (by simp [known]), code, nothing, applyAll_nil]
  · have large : inst.smallDisplacement = false := by simpa using small
    have computes : inst.computesAddress op = true := by
      simp [computesAddress, large]
    rw [if_neg small] at code
    rw [if_pos computes, ← value, code,
      inst.translateMemory_hasAddress op tempA tempB large]

end Stores

/-- `mov eax, [eax + displacement]` with an address-size prefix. -/
def shortAddress (displacement : BitVec 64) : Instruction :=
  InstructionClass.mov.construct
    { type := .mov
      operands := [.reg .dword 0 .gpl, .mem .dword (some 0)]
      addressSizeQword := false
      displacement := displacement }

/-- A state in which the upper half of rax is not zero. -/
def longRegister : State where
  regs
    | .a7 => 0x100004000
    | _ => 0
  mem _ := 0

/-- A large displacement is added in front of the truncation. -/
theorem addressesAgree_iff_shortAddress :
    (shortAddress 0x12340).AddressesAgree ((shortAddress 0x12340).getOperand 1)
      .t0 .t1 0 longRegister :=
  (addressesAgree_iff (shortAddress 0x12340)
    ((shortAddress 0x12340).getOperand 1) (by decide) .t0 .t1 (by decide)
    (by decide) (by decide) (fun guest _ => by simp) (fun guest _ => by simp) 0
    longRegister).mpr (by decide +kernel)

/-- The load goes to the long address. -/
theorem shortAddress_disagrees :
    ¬ (shortAddress 0).AddressesAgree ((shortAddress 0).getOperand 1) .t0 .t1 0
      longRegister := by
  intro agree
  have read := agree.read false
  revert read
  decide +kernel

end Instruction
end Oxtra

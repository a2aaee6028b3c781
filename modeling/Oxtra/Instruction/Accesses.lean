import Oxtra.Instruction.Addresses
import Oxtra.Library.RiscV.Trace
import Mathlib.Tactic.Abel

/-!
# Accesses to memory operands

What the code for a memory operand computes and which address it accesses.
The temporaries may be registers of the guest that the operand needs: then the
address is right as long as they are not written too early.
-/

namespace Oxtra
namespace Instruction

open RiscV
open Encoding
open Helper
open Fadec (Operand OperandSize)

variable (inst : Instruction)

/-- The scale is the amount of a shift. -/
theorem indexScale_amount :
    ((inst.indexScale.setWidth 8).setWidth 6).toNat =
      inst.indexScale.toNat := by
  simp only [BitVec.toNat_setWidth]
  omega

/-! ## `translate_memory` -/

/-- The temporary is written while its register is still needed. -/
def Clobbers (op : Operand) (temp : Register) : Prop :=
  match baseRegister op, inst.indexRegister with
  | some base, some _ => inst.indexScale ≠ 0 ∧ temp = mapReg base
  | some base, none => inst.smallDisplacement = false ∧ temp = mapReg base
  | none, some index =>
      inst.smallDisplacement = false ∧ inst.indexScale = 0 ∧
        temp = mapReg index
  | none, none => False

instance (op : Operand) (temp : Register) :
    Decidable (inst.Clobbers op temp) :=
  match foundBase : baseRegister op, foundIndex : inst.indexRegister with
  | some base, some _ =>
      decidable_of_iff (inst.indexScale ≠ 0 ∧ temp = mapReg base)
        (by simp [Clobbers, foundBase, foundIndex])
  | some base, none =>
      decidable_of_iff
        (inst.smallDisplacement = false ∧ temp = mapReg base)
        (by simp [Clobbers, foundBase, foundIndex])
  | none, some index =>
      decidable_of_iff
        (inst.smallDisplacement = false ∧ inst.indexScale = 0 ∧
          temp = mapReg index)
        (by simp [Clobbers, foundBase, foundIndex])
  | none, none =>
      isFalse (by simp [Clobbers, foundBase, foundIndex])

/-- A temporary that is no register of the guest clobbers nothing. -/
theorem not_clobbers_of_reserved
    (op : Operand)
    {temp : Register}
    (reserved : isGuest temp = false) :
    ¬ inst.Clobbers op temp := by
  unfold Clobbers
  split <;> simp [reserved]

section TranslateMemory

variable {dst temp : Register}
variable (pc : Word) (state : State)

theorem translateIndex_value
    (dstNonzero : dst ≠ .zero)
    (tempNonzero : temp ≠ .zero)
    (hasBase : Bool) :
    (applyAll pc state (inst.translateIndex hasBase dst temp).1).get
        (inst.translateIndex hasBase dst temp).2 =
      inst.scaledIndex state := by
  have amount := inst.indexScale_amount
  unfold translateIndex scaledIndex
  cases inst.indexRegister with
  | none => simp [registerValue]
  | some index =>
      by_cases scale : inst.indexScale = 0
      · simp [scale, registerValue]
      · have nonzero : (if hasBase then temp else dst) ≠ .zero := by
          split <;> assumption
        simp only [if_neg scale, scaleIndex, applyAll_cons, applyAll_nil,
          apply_slli, State.set_get_self _ _ nonzero, amount, registerValue]

theorem translateBase_value
    (dstNonzero : dst ≠ .zero)
    (base : Option Fadec.Register)
    (result : Register) :
    (applyAll pc state (translateBase base dst result).1).get
        (translateBase base dst result).2 =
      registerValue state base + state.get result := by
  unfold translateBase
  cases base with
  | none => simp [registerValue]
  | some base =>
      by_cases zero : result = .zero
      · simp [zero, registerValue]
      · simp [zero, registerValue, State.set_get_self _ _ dstNonzero,
          BitVec.add_comm]

theorem translateDisplacement_value
    (dstNonzero : dst ≠ .zero)
    (tempNonzero : temp ≠ .zero)
    {result : Register}
    (kept : inst.smallDisplacement = false -> result ≠ temp) :
    (applyAll pc state (inst.translateDisplacement dst temp result).1).get
        (inst.translateDisplacement dst temp result).2 =
      state.get result + inst.displacement := by
  unfold translateDisplacement
  by_cases none : inst.displacement = 0
  · simp [none]
  · rw [if_pos none]
    by_cases small : inst.smallDisplacement = true
    · simp only [if_pos small, applyAll_cons, applyAll_nil, apply_addi,
        State.set_get_self _ _ dstNonzero,
        signedImm_setWidth _ (by decide : 12 ≤ 16),
        inst.signedImm_displacement small]
    · rw [if_neg small]
      by_cases zero : result = .zero
      · simp [zero, applyAll_loadImmediate dstNonzero,
          State.set_get_self _ _ dstNonzero]
      · have different : result ≠ temp := kept (by simpa using small)
        simp [zero, applyAll_append, applyAll_loadImmediate tempNonzero,
          State.set_get_self _ _ dstNonzero,
          State.set_get_self _ _ tempNonzero,
          State.set_get_of_ne _ _ different]

/-- Only the temporary is written in front of a base. -/
theorem translateIndex_computesInto (hasBase : Bool) :
    ComputesInto [if hasBase then temp else dst]
      (inst.translateIndex hasBase dst temp).1 := by
  unfold translateIndex
  cases inst.indexRegister with
  | none => exact ComputesInto.nil
  | some index =>
      by_cases scale : inst.indexScale = 0
      · simp only [if_pos scale]
        exact ComputesInto.nil
      · simp only [if_neg scale]
        exact ComputesInto.singleton rfl rfl (by simp)

theorem translateBase_computesInto
    (base : Option Fadec.Register)
    (result : Register) :
    ComputesInto [dst] (translateBase base dst result).1 := by
  unfold translateBase
  cases base with
  | none => exact ComputesInto.nil
  | some base =>
      by_cases zero : result = .zero
      · simp only [zero, ne_eq, not_true_eq_false, if_false]
        exact ComputesInto.nil
      · simp only [ne_eq, zero, not_false_eq_true, if_true]
        exact ComputesInto.singleton rfl rfl (by simp)

theorem translateDisplacement_computesInto (result : Register) :
    ComputesInto [dst, temp]
      (inst.translateDisplacement dst temp result).1 := by
  have loads := fun dest => loadImmediate_computesInto inst.displacement dest
  unfold translateDisplacement
  split
  · split
    · exact ComputesInto.singleton rfl rfl (by simp)
    · split
      · exact (loads dst).mono (by simp)
      · exact ComputesInto.append_iff.mpr ⟨(loads temp).mono (by simp),
          ComputesInto.singleton rfl rfl (by simp)⟩
  · exact ComputesInto.nil

/-- Without an overlap the sum is computed from the values in front of the
code. -/
theorem registerValue_translateIndex
    {op : Operand}
    (free : ¬ inst.Clobbers op temp) :
    registerValue
        (applyAll pc state
          (inst.translateIndex (baseRegister op).isSome dst temp).1)
        (baseRegister op) =
      registerValue state (baseRegister op) := by
  cases found : baseRegister op with
  | none => rfl
  | some base =>
      unfold Clobbers at free
      rw [found] at free
      unfold translateIndex
      cases index : inst.indexRegister with
      | none => rfl
      | some index =>
          simp only [index, not_and] at free
          by_cases scale : inst.indexScale = 0
          · simp only [if_pos scale]
            rfl
          · have different : mapReg base ≠ temp := Ne.symm (free scale)
            simp only [if_neg scale, scaleIndex, applyAll_cons, applyAll_nil,
              apply_slli, Option.isSome_some, if_true, registerValue,
              State.set_get_of_ne _ _ different]

/-- The register of the sum is not the temporary for a displacement. -/
theorem translateBase_ne
    {op : Operand}
    (different : dst ≠ temp)
    (tempNonzero : temp ≠ .zero)
    (free : ¬ inst.Clobbers op temp)
    (large : inst.smallDisplacement = false) :
    (translateBase (baseRegister op) dst
      (inst.translateIndex (baseRegister op).isSome dst temp).2).2 ≠ temp := by
  unfold Clobbers at free
  unfold translateIndex
  cases found : baseRegister op with
  | none =>
      cases index : inst.indexRegister with
      | none => exact tempNonzero.symm
      | some index =>
          simp only [found, index, large, true_and, not_and] at free
          by_cases scale : inst.indexScale = 0
          · simp only [if_pos scale, translateBase]
            exact Ne.symm (free scale)
          · simp only [if_neg scale, translateBase]
            exact different
  | some base =>
      cases foundIndex : inst.indexRegister with
      | none =>
          simp only [found, foundIndex, large, true_and] at free
          exact Ne.symm free
      | some index =>
          have nonzero : (if inst.indexScale = 0 then
              (([] : List Inst), mapReg index)
            else
              ([inst.scaleIndex temp index], temp)).2 ≠ .zero := by
            split
            · simp
            · exact tempNonzero
          simp only [Option.isSome_some, if_true, translateBase]
          rw [if_pos nonzero]
          exact different

/-- The sum that `translate_memory` makes, in front of the truncation. -/
def translateSum (op : Operand) (dst temp : Register) : List Inst × Register :=
  let index := inst.translateIndex (baseRegister op).isSome dst temp
  let base := translateBase (baseRegister op) dst index.2
  let displacement := inst.translateDisplacement dst temp base.2
  (index.1 ++ base.1 ++ displacement.1, displacement.2)

theorem translateMemory_eq (op : Operand) (forceDst : Bool) :
    inst.translateMemory op dst temp forceDst =
      let sum := inst.translateSum op dst temp
      if ¬inst.addressSizeQword then
        (sum.1 ++ [slli dst sum.2 32, srli dst dst 32], dst)
      else if forceDst ∧ sum.2 ≠ dst then
        (sum.1 ++ [mv dst sum.2], dst)
      else
        sum := rfl

theorem translateSum_value
    {op : Operand}
    (dstNonzero : dst ≠ .zero)
    (tempNonzero : temp ≠ .zero)
    (different : dst ≠ temp)
    (free : ¬ inst.Clobbers op temp) :
    (applyAll pc state (inst.translateSum op dst temp).1).get
        (inst.translateSum op dst temp).2 =
      inst.linearAddress op state := by
  simp only [translateSum, applyAll_append]
  rw [inst.translateDisplacement_value _ _ dstNonzero tempNonzero
      (inst.translateBase_ne different tempNonzero free),
    translateBase_value _ _ dstNonzero,
    inst.translateIndex_value _ _ dstNonzero tempNonzero,
    inst.registerValue_translateIndex _ _ free]
  rfl

theorem translateSum_computesInto (op : Operand) :
    ComputesInto [dst, temp] (inst.translateSum op dst temp).1 := by
  refine ComputesInto.append_iff.mpr ⟨ComputesInto.append_iff.mpr ⟨?_, ?_⟩,
    inst.translateDisplacement_computesInto _⟩
  · refine (inst.translateIndex_computesInto _).mono ?_
    intro register member
    rw [List.mem_singleton] at member
    split at member <;> simp [member]
  · exact (translateBase_computesInto _ _).mono (by simp)

/-- The lower half of a word. -/
theorem truncate_eq (value : Word) :
    (value <<< ((32 : BitVec 8).setWidth 6).toNat) >>>
        ((32 : BitVec 8).setWidth 6).toNat =
      (value.setWidth 32).setWidth 64 := by
  have amount : ((32 : BitVec 8).setWidth 6).toNat = 32 := by decide
  rw [amount]
  apply BitVec.eq_of_toNat_eq
  simp only [BitVec.toNat_ushiftRight, BitVec.toNat_shiftLeft,
    BitVec.toNat_setWidth, Nat.shiftRight_eq_div_pow, Nat.shiftLeft_eq]
  omega

/-- `translate_memory` computes the address of the operand. -/
theorem translateMemory_value
    {op : Operand}
    (dstNonzero : dst ≠ .zero)
    (tempNonzero : temp ≠ .zero)
    (different : dst ≠ temp)
    (free : ¬ inst.Clobbers op temp)
    (forceDst : Bool) :
    (applyAll pc state (inst.translateMemory op dst temp forceDst).1).get
        (inst.translateMemory op dst temp forceDst).2 =
      inst.operandAddress op state := by
  have sum := inst.translateSum_value pc state dstNonzero tempNonzero
    different free
  rw [translateMemory_eq, operandAddress, truncateAddress]
  cases inst.addressSizeQword with
  | true =>
      simp only [not_true_eq_false, if_false, if_true]
      split
      · simp only [applyAll_append, applyAll_cons, applyAll_nil, apply_mv,
          State.set_get_self _ _ dstNonzero, sum]
      · exact sum
  | false =>
      simp only [Bool.false_eq_true, not_false_eq_true, if_true, if_false,
        applyAll_append, applyAll_cons, applyAll_nil, apply_slli, apply_srli,
        State.set_get_self _ _ dstNonzero, sum, truncate_eq]

theorem translateMemory_computesInto (op : Operand) (forceDst : Bool) :
    ComputesInto [dst, temp]
      (inst.translateMemory op dst temp forceDst).1 := by
  have sum := @translateSum_computesInto inst dst temp op
  rw [translateMemory_eq]
  cases inst.addressSizeQword with
  | true =>
      simp only [not_true_eq_false, if_false]
      split
      · exact ComputesInto.append_iff.mpr ⟨sum,
          ComputesInto.singleton rfl rfl (by simp)⟩
      · exact sum
  | false =>
      simp only [Bool.false_eq_true, not_false_eq_true, if_true]
      refine ComputesInto.append_iff.mpr ⟨sum, ComputesInto.cons_iff.mpr ⟨?_,
        ComputesInto.singleton rfl rfl (by simp)⟩⟩
      exact Inst.computesInto_of_target rfl rfl (by simp)

end TranslateMemory

/-! ## Simple addresses -/

/-- The sum of base and index, which reading and writing an operand compute
by themselves when the displacement is small. -/
def simpleAddress (op : Operand) (sum shifted : Register) :
    List Inst × Register :=
  match (baseRegister op).map mapReg, inst.indexRegister with
  | base, none => ([], base.getD .zero)
  | some base, some index =>
      if inst.indexScale = 0 then
        ([add sum base (mapReg index)], sum)
      else
        ([inst.scaleIndex shifted index, add sum shifted base], sum)
  | none, some index =>
      if inst.indexScale = 0 then
        ([], mapReg index)
      else
        ([inst.scaleIndex sum index], sum)

theorem readAddress_eq (op : Operand) (dest temp : Register) :
    inst.readAddress op dest temp =
      if inst.smallDisplacement then
        inst.simpleAddress op temp temp
      else
        inst.translateMemory op temp dest false := rfl

theorem writeAddress_eq (op : Operand) (tempA tempB address : Register) :
    inst.writeAddress op tempA tempB address =
      if address ≠ .zero then
        ([], address)
      else if inst.smallDisplacement then
        inst.simpleAddress op tempA tempB
      else
        inst.translateMemory op tempA tempB false := rfl

section Addresses

variable {op : Operand} (pc : Word) (state : State)

theorem simpleAddress_value
    {sum shifted : Register}
    (sumNonzero : sum ≠ .zero)
    (shiftedNonzero : shifted ≠ .zero)
    (different : ∀ base ∈ baseRegister op, mapReg base ≠ shifted) :
    (applyAll pc state (inst.simpleAddress op sum shifted).1).get
        (inst.simpleAddress op sum shifted).2 =
      registerValue state (baseRegister op) + inst.scaledIndex state := by
  have amount := inst.indexScale_amount
  unfold simpleAddress scaledIndex
  cases found : baseRegister op with
  | none =>
      cases inst.indexRegister with
      | none => simp [registerValue]
      | some index =>
          by_cases scale : inst.indexScale = 0
          · simp [scale, registerValue]
          · simp only [Option.map_none, if_neg scale, scaleIndex,
              applyAll_cons, applyAll_nil, apply_slli,
              State.set_get_self _ _ sumNonzero, amount, registerValue,
              zero_add]
  | some base =>
      have kept : mapReg base ≠ shifted := different base found
      cases inst.indexRegister with
      | none => simp [registerValue]
      | some index =>
          by_cases scale : inst.indexScale = 0
          · simp [scale, registerValue, State.set_get_self _ _ sumNonzero]
          · simp only [Option.map_some, if_neg scale, scaleIndex,
              applyAll_cons, applyAll_nil, apply_slli, apply_add,
              State.set_get_self _ _ sumNonzero,
              State.set_get_self _ _ shiftedNonzero,
              State.set_get_of_ne _ _ kept, amount, registerValue]
            rw [add_comm]

theorem simpleAddress_computesInto (sum shifted : Register) :
    ComputesInto [sum, shifted] (inst.simpleAddress op sum shifted).1 := by
  unfold simpleAddress
  split
  · exact ComputesInto.nil
  · split
    · exact ComputesInto.singleton rfl rfl (by simp)
    · exact ComputesInto.cons_iff.mpr
        ⟨Inst.computesInto_of_target rfl rfl (by simp),
          ComputesInto.singleton rfl rfl (by simp)⟩
  · split
    · exact ComputesInto.nil
    · exact ComputesInto.singleton rfl rfl (by simp)

/-- Something has to be computed for the address of an operand, before a small
displacement is added. -/
def computesAddress (op : Operand) : Bool :=
  !inst.smallDisplacement ||
    (inst.indexRegister.isSome &&
      ((baseRegister op).isSome || inst.indexScale != 0))

/-- The sum is computed, or it is in a register of the guest. -/
theorem simpleAddress_cases
    (small : inst.smallDisplacement = true)
    (op : Operand)
    (sum shifted : Register) :
    inst.computesAddress op = true ∧
        (inst.simpleAddress op sum shifted).2 = sum ∨
      inst.computesAddress op = false ∧
        (inst.simpleAddress op sum shifted).1 = [] := by
  unfold simpleAddress computesAddress
  cases baseRegister op <;> cases inst.indexRegister <;>
    by_cases scale : inst.indexScale = 0#2 <;> simp [small, scale]

/-- The address in front of a load. -/
theorem readAddress_value
    {dest temp : Register}
    (destNonzero : dest ≠ .zero)
    (tempNonzero : temp ≠ .zero)
    (different : temp ≠ dest)
    (tempFree : ∀ base ∈ baseRegister op, mapReg base ≠ temp)
    (destFree : inst.smallDisplacement = false -> ¬ inst.Clobbers op dest) :
    (applyAll pc state (inst.readAddress op dest temp).1).get
        (inst.readAddress op dest temp).2 =
      inst.partialAddress op state := by
  rw [readAddress_eq, partialAddress]
  by_cases small : inst.smallDisplacement = true
  · rw [if_pos small, if_pos small]
    exact inst.simpleAddress_value pc state tempNonzero tempNonzero tempFree
  · rw [if_neg small, if_neg small]
    exact inst.translateMemory_value pc state tempNonzero destNonzero different
      (destFree (by simpa using small)) false

theorem readAddress_computesInto (dest temp : Register) :
    ComputesInto [temp, dest] (inst.readAddress op dest temp).1 := by
  rw [readAddress_eq]
  split
  · exact (inst.simpleAddress_computesInto temp temp).mono (by simp)
  · exact inst.translateMemory_computesInto op false

/-- The address in front of a store that does not follow a load. -/
theorem writeAddress_value
    {tempA tempB : Register}
    (nonzeroA : tempA ≠ .zero)
    (nonzeroB : tempB ≠ .zero)
    (different : tempA ≠ tempB)
    (free : ∀ base ∈ baseRegister op, mapReg base ≠ tempB)
    (largeFree : inst.smallDisplacement = false ->
      ¬ inst.Clobbers op tempB) :
    (applyAll pc state (inst.writeAddress op tempA tempB .zero).1).get
        (inst.writeAddress op tempA tempB .zero).2 =
      inst.partialAddress op state := by
  rw [writeAddress_eq, partialAddress, if_neg (not_not_intro rfl)]
  by_cases small : inst.smallDisplacement = true
  · rw [if_pos small, if_pos small]
    exact inst.simpleAddress_value pc state nonzeroA nonzeroB free
  · rw [if_neg small, if_neg small]
    exact inst.translateMemory_value pc state nonzeroA nonzeroB different
      (largeFree (by simpa using small)) false

theorem writeAddress_computesInto (tempA tempB address : Register) :
    ComputesInto [tempA, tempB]
      (inst.writeAddress op tempA tempB address).1 := by
  rw [writeAddress_eq]
  split
  · exact ComputesInto.nil
  · split
    · exact inst.simpleAddress_computesInto tempA tempB
    · exact inst.translateMemory_computesInto op false

end Addresses

/-! ## Segments -/

section Segments

variable (pc : Word) (state : State) {base temp : Register}

theorem handleSegmentOverride_eq :
    inst.handleSegmentOverride base temp =
      if inst.segmentOffset ≠ 0 then
        (ld temp contextAddress inst.segmentOffset ::
          (if base ≠ .zero then [add temp base temp] else []), temp)
      else
        ([], base) := rfl

/-- The base of the segment is added to the address. -/
theorem handleSegmentOverride_value
    (nonzero : temp ≠ .zero)
    (different : base ≠ temp) :
    (applyAll pc state (inst.handleSegmentOverride base temp).1).get
        (inst.handleSegmentOverride base temp).2 =
      state.get base + inst.segmentBase state := by
  rw [handleSegmentOverride_eq, segmentBase]
  by_cases override : inst.segmentOffset = 0
  · simp [override]
  · simp only [ne_eq, override, not_false_eq_true, if_true, if_false]
    by_cases zero : base = .zero
    · simp only [zero, not_true_eq_false, if_false, applyAll_cons,
        applyAll_nil, ld_eq, apply_load, State.set_get_self _ _ nonzero,
        State.get_zero]
      exact (BitVec.zero_add _).symm
    · simp only [zero, not_false_eq_true, if_true, applyAll_cons,
        applyAll_nil, ld_eq, apply_load, apply_add,
        State.set_get_self _ _ nonzero, State.set_get_of_ne _ _ different]
      rfl

/-- Only the temporary is written. -/
theorem handleSegmentOverride_get
    {register : Register}
    (kept : register ≠ temp) :
    (applyAll pc state (inst.handleSegmentOverride base temp).1).get
        register = state.get register := by
  apply applyAll_get_of_not_target
  intro written member same
  rw [handleSegmentOverride_eq] at member
  split at member
  · rcases List.mem_cons.mp member with rfl | further
    · cases same
      exact kept rfl
    · split at further
      · rw [List.mem_singleton] at further
        rw [further] at same
        cases same
        exact kept rfl
      · cases further
  · cases member

theorem handleSegmentOverride_mem :
    (applyAll pc state (inst.handleSegmentOverride base temp).1).mem =
      state.mem := by
  apply applyAll_mem_of_target
  intro written member
  rw [handleSegmentOverride_eq] at member
  split at member
  · rcases List.mem_cons.mp member with rfl | further
    · rfl
    · split at further
      · rw [List.mem_singleton] at further
        rw [further]
        rfl
      · cases further
  · cases member

/-- The base of a segment is read through the register for the context. -/
theorem handleSegmentOverride_base :
    ∀ written ∈ (inst.handleSegmentOverride base temp).1,
      written.isStraight = true ∧
        (written.base = none ∨ written.base = some contextAddress) := by
  intro written member
  rw [handleSegmentOverride_eq] at member
  split at member
  · rcases List.mem_cons.mp member with rfl | further
    · exact ⟨rfl, Or.inr rfl⟩
    · split at further
      · rw [List.mem_singleton] at further
        rw [further]
        exact ⟨rfl, Or.inl rfl⟩
      · cases further
  · cases member

end Segments

/-! ## Reading and writing -/

/-- The code that computes the address of a load, with the segment. -/
def readBase (op : Operand) (dest temp : Register) : List Inst × Register :=
  let address := inst.readAddress op dest temp
  let segment := inst.handleSegmentOverride address.2
    (if address.2 = temp then dest else temp)
  (address.1 ++ segment.1, segment.2)

theorem readFromMemory_eq
    (op : Operand)
    (dest temp : Register)
    (signExtended : Bool) :
    inst.readFromMemory op dest temp signExtended =
      let base := inst.readBase op dest temp
      (base.1 ++ [loadOperand op.size signExtended dest base.2
        (inst.operationDisplacement.setWidth 16)], base.2) := rfl

/-- The code that computes the address of a store, with the segment. -/
def writeBase (op : Operand) (tempA tempB address : Register) :
    List Inst × Register :=
  let address := inst.writeAddress op tempA tempB address
  let segment := inst.handleSegmentOverride address.2
    (if address.2 = tempA then tempB else tempA)
  (address.1 ++ segment.1, segment.2)

theorem writeToMemory_eq
    (op : Operand)
    (src tempA tempB address : Register) :
    inst.writeToMemory op src tempA tempB address =
      let base := inst.writeBase op tempA tempB address
      base.1 ++ [storeOperand op.size base.2 src
        (inst.operationDisplacement.setWidth 32)] := rfl

/-- The kind of the load of an operand. -/
def operandLoad : OperandSize -> Bool -> Load
  | .qword, _ => .ld
  | .dword, signExtended => if signExtended then .lw else .lwu
  | .word, signExtended => if signExtended then .lh else .lhu
  | .byte, signExtended => if signExtended then .lb else .lbu

theorem loadOperand_eq (size : OperandSize) (signExtended : Bool) :
    loadOperand size signExtended = load (operandLoad size signExtended) := by
  cases size <;> cases signExtended <;> rfl

@[simp] theorem operandLoad_bytes (size : OperandSize) (signExtended : Bool) :
    (operandLoad size signExtended).width.bytes = size.bytes := by
  cases size <;> cases signExtended <;> rfl

/-- The kind of the store of an operand. -/
def operandStore : OperandSize -> Store
  | .qword => .sd
  | .dword => .sw
  | .word => .sh
  | .byte => .sb

theorem storeOperand_eq (size : OperandSize) :
    storeOperand size = store (operandStore size) := by
  cases size <;> rfl

@[simp] theorem operandStore_bytes (size : OperandSize) :
    (operandStore size).width.bytes = size.bytes := by
  cases size <;> rfl

section Bases

variable {op : Operand} (pc : Word) (state : State)

/-- A register that the translation may use next to the guest's. -/
def Scratch (register : Register) : Prop :=
  register ≠ .zero ∧ register ≠ contextAddress

instance : DecidablePred Scratch :=
  fun _ => inferInstanceAs (Decidable (_ ∧ _))

/-- The segment is added to the address that was computed before. -/
theorem readBase_add
    {dest temp : Register}
    (destScratch : Scratch dest)
    (tempScratch : Scratch temp)
    (different : temp ≠ dest) :
    (applyAll pc state (inst.readBase op dest temp).1).get
        (inst.readBase op dest temp).2 =
      (applyAll pc state (inst.readAddress op dest temp).1).get
        (inst.readAddress op dest temp).2 + inst.segmentBase state := by
  have computes := @readAddress_computesInto inst op dest temp
  have context : (applyAll pc state (inst.readAddress op dest temp).1).get
      contextAddress = state.get contextAddress :=
    computes.get pc state (by
      simp [tempScratch.2.symm, destScratch.2.symm])
  have base : inst.segmentBase
      (applyAll pc state (inst.readAddress op dest temp).1) =
        inst.segmentBase state := by
    unfold segmentBase
    rw [context, computes.mem]
  simp only [readBase, applyAll_append]
  rw [handleSegmentOverride_value, base]
  · split
    · exact destScratch.1
    · exact tempScratch.1
  · split
    · rename_i same
      rw [same]
      exact different
    · assumption

/-- The effective address, apart from a small displacement. -/
theorem readBase_value
    {dest temp : Register}
    (destScratch : Scratch dest)
    (tempScratch : Scratch temp)
    (different : temp ≠ dest)
    (tempFree : ∀ base ∈ baseRegister op, mapReg base ≠ temp)
    (destFree : inst.smallDisplacement = false -> ¬ inst.Clobbers op dest) :
    (applyAll pc state (inst.readBase op dest temp).1).get
        (inst.readBase op dest temp).2 =
      inst.partialAddress op state + inst.segmentBase state := by
  rw [inst.readBase_add pc state destScratch tempScratch different,
    inst.readAddress_value pc state destScratch.1 tempScratch.1 different
      tempFree destFree]

theorem readBase_get
    (dest temp : Register)
    {register : Register}
    (notDest : register ≠ dest)
    (notTemp : register ≠ temp) :
    (applyAll pc state (inst.readBase op dest temp).1).get register =
      state.get register := by
  have kept : register ≠
      if (inst.readAddress op dest temp).2 = temp then dest else temp := by
    split <;> assumption
  simp only [readBase, applyAll_append]
  rw [handleSegmentOverride_get _ _ _ kept,
    (inst.readAddress_computesInto dest temp).get _ _
      (by simp [notDest, notTemp])]

theorem readBase_mem (dest temp : Register) :
    (applyAll pc state (inst.readBase op dest temp).1).mem = state.mem := by
  simp only [readBase, applyAll_append]
  rw [handleSegmentOverride_mem,
    (inst.readAddress_computesInto dest temp).mem]

/-- The base of a segment is all that is read for an address. -/
theorem readBase_base (dest temp : Register) :
    ∀ written ∈ (inst.readBase op dest temp).1,
      written.isStraight = true ∧
        (written.base = none ∨ written.base = some contextAddress) := by
  intro written member
  have computes := @readAddress_computesInto inst op dest temp
  rcases List.mem_append.mp member with address | segment
  · exact ⟨computes.straight _ address, Or.inl (computes.base_none _ address)⟩
  · exact inst.handleSegmentOverride_base _ segment

/-- The same for a store whose address is not known. -/
theorem writeBase_value
    {tempA tempB : Register}
    (scratchA : Scratch tempA)
    (scratchB : Scratch tempB)
    (different : tempA ≠ tempB)
    (free : ∀ base ∈ baseRegister op, mapReg base ≠ tempB)
    (largeFree : inst.smallDisplacement = false ->
      ¬ inst.Clobbers op tempB) :
    (applyAll pc state (inst.writeBase op tempA tempB .zero).1).get
        (inst.writeBase op tempA tempB .zero).2 =
      inst.partialAddress op state + inst.segmentBase state := by
  have computes := @writeAddress_computesInto inst op tempA tempB .zero
  have context : (applyAll pc state
      (inst.writeAddress op tempA tempB .zero).1).get contextAddress =
        state.get contextAddress :=
    computes.get pc state (by simp [scratchA.2.symm, scratchB.2.symm])
  have base : inst.segmentBase
      (applyAll pc state (inst.writeAddress op tempA tempB .zero).1) =
        inst.segmentBase state := by
    unfold segmentBase
    rw [context, computes.mem]
  simp only [writeBase, applyAll_append]
  rw [handleSegmentOverride_value, inst.writeAddress_value pc state scratchA.1
    scratchB.1 different free largeFree, base]
  · split
    · exact scratchB.1
    · exact scratchA.1
  · split
    · rename_i same
      rw [same]
      exact different
    · assumption

/-- A store to a known address adds the segment to it. -/
theorem writeBase_known
    {tempA tempB address : Register}
    (scratchA : Scratch tempA)
    (scratchB : Scratch tempB)
    (different : tempA ≠ tempB)
    (known : address ≠ .zero) :
    (applyAll pc state (inst.writeBase op tempA tempB address).1).get
        (inst.writeBase op tempA tempB address).2 =
      state.get address + inst.segmentBase state := by
  have same : inst.writeAddress op tempA tempB address = ([], address) := by
    rw [writeAddress_eq, if_pos known]
  simp only [writeBase, same, List.nil_append]
  rw [handleSegmentOverride_value]
  · split
    · exact scratchB.1
    · exact scratchA.1
  · split
    · rename_i equal
      rw [equal]
      exact different
    · assumption

theorem writeBase_get
    (tempA tempB address : Register)
    {register : Register}
    (notA : register ≠ tempA)
    (notB : register ≠ tempB) :
    (applyAll pc state (inst.writeBase op tempA tempB address).1).get
      register = state.get register := by
  have kept : register ≠
      if (inst.writeAddress op tempA tempB address).2 = tempA then tempB
        else tempA := by
    split <;> assumption
  simp only [writeBase, applyAll_append]
  rw [handleSegmentOverride_get _ _ _ kept,
    (inst.writeAddress_computesInto tempA tempB address).get _ _
      (by simp [notA, notB])]

theorem writeBase_mem (tempA tempB address : Register) :
    (applyAll pc state (inst.writeBase op tempA tempB address).1).mem =
      state.mem := by
  simp only [writeBase, applyAll_append]
  rw [handleSegmentOverride_mem,
    (inst.writeAddress_computesInto tempA tempB address).mem]

theorem writeBase_base (tempA tempB address : Register) :
    ∀ written ∈ (inst.writeBase op tempA tempB address).1,
      written.isStraight = true ∧
        (written.base = none ∨ written.base = some contextAddress) := by
  intro written member
  have computes := @writeAddress_computesInto inst op tempA tempB address
  rcases List.mem_append.mp member with sum | segment
  · exact ⟨computes.straight _ sum, Or.inl (computes.base_none _ sum)⟩
  · exact inst.handleSegmentOverride_base _ segment

end Bases

/-! ## Registers with addresses -/

/-- A register that some code may leave an address in. -/
def HasAddress (registers : List Register) (result : Register) : Prop :=
  result = .zero ∨ isGuest result = true ∨ result ∈ registers

theorem HasAddress.mono
    {registers more : List Register}
    {result : Register}
    (hasAddress : HasAddress registers result)
    (subset : ∀ register ∈ registers, register ∈ more) :
    HasAddress more result :=
  hasAddress.imp_right (Or.imp_right (subset result))

theorem HasAddress.ne_context
    {registers : List Register}
    {result : Register}
    (hasAddress : HasAddress registers result)
    (scratch : ∀ register ∈ registers, Scratch register) :
    result ≠ contextAddress := by
  rcases hasAddress with rfl | guest | member
  · decide
  · exact ne_of_isGuest guest (by decide)
  · exact (scratch result member).2

section HasAddress

variable (op : Operand)

theorem simpleAddress_hasAddress (sum shifted : Register) :
    HasAddress [sum] (inst.simpleAddress op sum shifted).2 := by
  unfold simpleAddress
  split
  · cases baseRegister op with
    | none => exact Or.inl rfl
    | some base => exact Or.inr (Or.inl (isGuest_mapReg base))
  · split <;> exact Or.inr (Or.inr (List.mem_singleton_self _))
  · split
    · exact Or.inr (Or.inl (isGuest_mapReg _))
    · exact Or.inr (Or.inr (List.mem_singleton_self _))

theorem translateMemory_hasAddress
    (dst temp : Register)
    (large : inst.smallDisplacement = false) :
    (inst.translateMemory op dst temp false).2 = dst := by
  have some : inst.displacement ≠ 0 := by
    intro none
    have small : inst.smallDisplacement = true := by
      rw [smallDisplacement, none]
      decide
    rw [small] at large
    cases large
  rw [translateMemory_eq]
  cases inst.addressSizeQword with
  | true =>
      simp only [not_true_eq_false, if_false, Bool.false_eq_true, false_and]
      simp only [translateSum, translateDisplacement, if_pos some, large,
        Bool.false_eq_true, if_false]
      split <;> rfl
  | false => rfl

/-- A sum is in its destination unless a register of the guest is the sum. -/
theorem translateSum_hasAddress {dst temp : Register} (nonzero : temp ≠ .zero) :
    HasAddress [dst] (inst.translateSum op dst temp).2 := by
  have displaced : ∀ result, HasAddress [dst] result ->
      HasAddress [dst] (inst.translateDisplacement dst temp result).2 := by
    intro result hasAddress
    unfold translateDisplacement
    split
    · split
      · exact Or.inr (Or.inr List.mem_cons_self)
      · split <;> exact Or.inr (Or.inr List.mem_cons_self)
    · exact hasAddress
  apply displaced
  unfold translateIndex translateBase
  cases baseRegister op with
  | none =>
      cases inst.indexRegister with
      | none => exact Or.inl rfl
      | some index =>
          by_cases scale : inst.indexScale = 0
          · simp only [if_pos scale]
            exact Or.inr (Or.inl (isGuest_mapReg index))
          · simp only [if_neg scale, Option.isSome_none, Bool.false_eq_true,
              if_false]
            exact Or.inr (Or.inr List.mem_cons_self)
  | some base =>
      cases inst.indexRegister with
      | none => exact Or.inr (Or.inl (isGuest_mapReg base))
      | some index =>
          by_cases scale : inst.indexScale = 0
          · have guest : mapReg index ≠ .zero := by simp
            simp only [if_pos scale, if_pos guest]
            exact Or.inr (Or.inr List.mem_cons_self)
          · simp only [if_neg scale, Option.isSome_some, if_true, if_pos nonzero]
            exact Or.inr (Or.inr List.mem_cons_self)

/-- The same holds for an address, forced into its destination or not. -/
theorem translateMemory_result
    {dst temp : Register}
    (nonzero : temp ≠ .zero)
    (forceDst : Bool) :
    HasAddress [dst] (inst.translateMemory op dst temp forceDst).2 := by
  rw [translateMemory_eq]
  split
  · exact Or.inr (Or.inr List.mem_cons_self)
  · simp only []
    split
    · exact Or.inr (Or.inr List.mem_cons_self)
    · exact inst.translateSum_hasAddress op nonzero

theorem readAddress_hasAddress (dest temp : Register) :
    HasAddress [temp] (inst.readAddress op dest temp).2 := by
  rw [readAddress_eq]
  by_cases small : inst.smallDisplacement = true
  · rw [if_pos small]
    exact inst.simpleAddress_hasAddress op temp temp
  · rw [if_neg small, inst.translateMemory_hasAddress op _ _
      (by simpa using small)]
    exact Or.inr (Or.inr (List.mem_singleton_self _))

theorem writeAddress_hasAddress (tempA tempB address : Register) :
    HasAddress [tempA, address]
      (inst.writeAddress op tempA tempB address).2 := by
  rw [writeAddress_eq]
  by_cases known : address = .zero
  · rw [if_neg (not_not_intro known)]
    by_cases small : inst.smallDisplacement = true
    · rw [if_pos small]
      exact (inst.simpleAddress_hasAddress op tempA tempB).mono (by simp)
    · rw [if_neg small, inst.translateMemory_hasAddress op _ _
        (by simpa using small)]
      exact Or.inr (Or.inr (by simp))
  · rw [if_pos known]
    exact Or.inr (Or.inr (by simp))

theorem handleSegmentOverride_hasAddress
    {base : Register}
    (temp : Register)
    {registers : List Register}
    (hasAddress : HasAddress registers base) :
    HasAddress (temp :: registers)
      (inst.handleSegmentOverride base temp).2 := by
  rw [handleSegmentOverride_eq]
  split
  · exact Or.inr (Or.inr List.mem_cons_self)
  · exact hasAddress.mono fun _ member => List.mem_cons_of_mem _ member

theorem readBase_hasAddress (dest temp : Register) :
    HasAddress [dest, temp] (inst.readBase op dest temp).2 := by
  refine (inst.handleSegmentOverride_hasAddress _
    (inst.readAddress_hasAddress op dest temp)).mono ?_
  intro register member
  rcases List.mem_cons.mp member with rfl | single
  · split <;> simp
  · exact List.mem_cons_of_mem _ single

theorem writeBase_hasAddress (tempA tempB address : Register) :
    HasAddress [tempA, tempB, address]
      (inst.writeBase op tempA tempB address).2 := by
  refine (inst.handleSegmentOverride_hasAddress _
    (inst.writeAddress_hasAddress op tempA tempB address)).mono ?_
  intro register member
  rcases List.mem_cons.mp member with rfl | further
  · split <;> simp
  · rcases List.mem_cons.mp further with rfl | single
    · simp
    · rw [List.mem_singleton] at single
      simp [single]

end HasAddress

/-! ## What is accessed -/

section Accessed

variable {op : Operand} (pc : Word) (state : State)

/-- The address of an access from the register that has the rest of it. -/
theorem address_add
    {address : Word}
    (known : address =
      inst.partialAddress op state + inst.segmentBase state) :
    address + signedImm inst.operationDisplacement =
      inst.accessedAddress op state + inst.segmentBase state := by
  rw [known, ← partialAddress_add]
  abel

/-- Reading an operand whose address is in some register. -/
theorem readFromMemory_apply
    {dest temp : Register}
    {target : Word}
    (reached : (applyAll pc state (inst.readBase op dest temp).1).get
          (inst.readBase op dest temp).2 +
      signedImm inst.operationDisplacement = target)
    (signExtended : Bool) :
    applyAll pc state (inst.readFromMemory op dest temp signExtended).1 =
      (applyAll pc state (inst.readBase op dest temp).1).set dest
        ((operandLoad op.size signExtended).eval state.mem target) := by
  simp only [readFromMemory_eq, applyAll_append, applyAll_cons, applyAll_nil,
    loadOperand_eq, apply_load, readBase_mem,
    signedImm_setWidth _ (by decide : 12 ≤ 16), reached]

theorem readFromMemory_accesses
    {dest temp : Register}
    {target : Word}
    (destScratch : Scratch dest)
    (tempScratch : Scratch temp)
    (reached : (applyAll pc state (inst.readBase op dest temp).1).get
          (inst.readBase op dest temp).2 +
      signedImm inst.operationDisplacement = target)
    (signExtended : Bool) :
    accessesApart contextAddress
        (Environment.straightTrace pc state
          (inst.readFromMemory op dest temp signExtended).1) =
      [.load target op.size.bytes] := by
  have visible := (inst.readBase_hasAddress op dest temp).ne_context
    (by simp [destScratch, tempScratch])
  have hidden : accessesApart contextAddress
      (Environment.straightTrace pc state (inst.readBase op dest temp).1) =
        [] :=
    accessesApart_eq_nil fun visit member =>
      (inst.readBase_base dest temp _
        (mem_code_of_mem_straightTrace member)).2
  rw [readFromMemory_eq, Environment.straightTrace_append,
    accessesApart_append, hidden, loadOperand_eq]
  simp only [Environment.straightTrace, accessesApart, List.filterMap_cons,
    List.filterMap_nil, Encoding.load, Inst.base, Option.some.injEq,
    if_neg visible, Inst.access, operandLoad_bytes, List.nil_append]
  rw [effectiveAddress, ← reached,
    ← signedImm_setWidth inst.operationDisplacement (by decide : 12 ≤ 16)]
  rfl

theorem readFromMemory_straight
    (dest temp : Register)
    (signExtended : Bool) :
    ∀ written ∈ (inst.readFromMemory op dest temp signExtended).1,
      written.isStraight = true := by
  intro written member
  rw [readFromMemory_eq] at member
  rcases List.mem_append.mp member with address | load
  · exact (inst.readBase_base dest temp _ address).1
  · rw [List.mem_singleton, loadOperand_eq] at load
    rw [load]
    rfl

/-- Writing an operand whose address is in some register. -/
theorem writeToMemory_apply
    {tempA tempB src address : Register}
    {target : Word}
    (reached : (applyAll pc state
        (inst.writeBase op tempA tempB address).1).get
          (inst.writeBase op tempA tempB address).2 +
      signedImm inst.operationDisplacement = target) :
    let addressed := applyAll pc state
      (inst.writeBase op tempA tempB address).1
    applyAll pc state (inst.writeToMemory op src tempA tempB address) =
      addressed.store target op.size.bytes (addressed.get src) := by
  simp only [writeToMemory_eq, applyAll_append, applyAll_cons, applyAll_nil,
    storeOperand_eq, apply_store, operandStore_bytes,
    signedImm_setWidth _ (by decide : 12 ≤ 32), reached]

/-- The store writes what is in the register behind the computation of the
address. -/
theorem writeToMemory_stores
    {tempA tempB src address : Register}
    {target : Word}
    (scratchA : Scratch tempA)
    (scratchB : Scratch tempB)
    (visible : address ≠ contextAddress)
    (reached : (applyAll pc state
        (inst.writeBase op tempA tempB address).1).get
          (inst.writeBase op tempA tempB address).2 +
      signedImm inst.operationDisplacement = target) :
    accessesApart contextAddress
        (Environment.straightTrace pc state
          (inst.writeToMemory op src tempA tempB address)) =
      [.store target op.size.bytes
        (((applyAll pc state
          (inst.writeBase op tempA tempB address).1).get src).toNat %
            256 ^ op.size.bytes)] := by
  have apart : (inst.writeBase op tempA tempB address).2 ≠
      contextAddress := by
    rcases inst.writeBase_hasAddress op tempA tempB address with
      zero | guest | member
    · rw [zero]
      decide
    · exact ne_of_isGuest guest (by decide)
    · simp only [List.mem_cons, List.not_mem_nil, or_false] at member
      rcases member with same | same | same <;> rw [same]
      · exact scratchA.2
      · exact scratchB.2
      · exact visible
  have hidden : accessesApart contextAddress
      (Environment.straightTrace pc state
        (inst.writeBase op tempA tempB address).1) = [] :=
    accessesApart_eq_nil fun visit member =>
      (inst.writeBase_base tempA tempB address _
        (mem_code_of_mem_straightTrace member)).2
  rw [writeToMemory_eq, Environment.straightTrace_append,
    accessesApart_append, hidden, storeOperand_eq]
  simp only [Environment.straightTrace, accessesApart, List.filterMap_cons,
    List.filterMap_nil, Encoding.store, Inst.base, Option.some.injEq,
    if_neg apart, Inst.access, operandStore_bytes, List.nil_append]
  rw [effectiveAddress, ← reached,
    ← signedImm_setWidth inst.operationDisplacement (by decide : 12 ≤ 32)]
  rfl

theorem writeToMemory_accesses
    {tempA tempB src address : Register}
    {target : Word}
    (scratchA : Scratch tempA)
    (scratchB : Scratch tempB)
    (visible : address ≠ contextAddress)
    (srcA : src ≠ tempA)
    (srcB : src ≠ tempB)
    (reached : (applyAll pc state
        (inst.writeBase op tempA tempB address).1).get
          (inst.writeBase op tempA tempB address).2 +
      signedImm inst.operationDisplacement = target) :
    accessesApart contextAddress
        (Environment.straightTrace pc state
          (inst.writeToMemory op src tempA tempB address)) =
      [.store target op.size.bytes
        ((state.get src).toNat % 256 ^ op.size.bytes)] := by
  rw [inst.writeToMemory_stores pc state scratchA scratchB visible reached,
    inst.writeBase_get _ _ _ _ _ srcA srcB]

theorem writeToMemory_straight
    (src tempA tempB address : Register) :
    ∀ written ∈ inst.writeToMemory op src tempA tempB address,
      written.isStraight = true := by
  intro written member
  rw [writeToMemory_eq] at member
  rcases List.mem_append.mp member with base | store
  · exact (inst.writeBase_base tempA tempB address _ base).1
  · rw [List.mem_singleton, storeOperand_eq] at store
    rw [store]
    rfl

end Accessed

end Instruction
end Oxtra

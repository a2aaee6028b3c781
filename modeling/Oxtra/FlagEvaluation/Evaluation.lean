import Oxtra.FlagEvaluation.Dispatch
import Oxtra.FlagEvaluation.Fields
import Oxtra.Instruction.FlagUpdates

/-!
# Evaluation of all flags

The values that the five flags have for some lazy information, and the code
that evaluates them.
-/

namespace Oxtra

open RiscV
open Encoding
open Helper
open FlagInfo

namespace FlagInfo

/-! ## Values of the flags -/

/-- The lowest byte of a word has an even number of ones. -/
def evenParity (value : Word) : Bool :=
  (List.range 8).countP (fun index => value.getLsbD index) % 2 == 0

/-- The flags that are evaluated from the contents of the fields.  The carry
and the overflow flag have a value if a routine of the table computes it. -/
structure Evaluated (contents : Field -> Word) (flags : Flag -> Bool) :
    Prop where
  zero : flags .zero = (contents .zeroValue == 0)
  sign : flags .sign =
    (contents .signValue).getLsbD (shiftAmount (contents .signSize))
  parity : flags .parity = evenParity (contents .parityValue)
  carry : ∃ entry : JumpTable.Entry,
    contents .carryOperation = entry.offset.setWidth 64 ∧
      entry.carryFlag (contents .carryFirst) (contents .carrySecond) =
        some (flags .carry)
  overflow : ∃ entry : JumpTable.Entry,
    contents .overflowOperation = entry.offset.setWidth 64 ∧
      entry.overflowFlag (contents .overflowFirst)
        (contents .overflowSecond) = some (flags .overflow)

/-- One flag has a value that is evaluated from the contents of the fields. -/
def EvaluatedFlag
    (contents : Field -> Word)
    (flag : Flag)
    (value : Bool) : Prop :=
  match flag with
  | .zero => value = (contents .zeroValue == 0)
  | .sign => value =
      (contents .signValue).getLsbD (shiftAmount (contents .signSize))
  | .parity => value = evenParity (contents .parityValue)
  | .carry => ∃ entry : JumpTable.Entry,
      contents .carryOperation = entry.offset.setWidth 64 ∧
        entry.carryFlag (contents .carryFirst) (contents .carrySecond) =
          some value
  | .overflow => ∃ entry : JumpTable.Entry,
      contents .overflowOperation = entry.offset.setWidth 64 ∧
        entry.overflowFlag (contents .overflowFirst)
          (contents .overflowSecond) = some value

theorem Evaluated.flag
    {contents : Field -> Word}
    {flags : Flag -> Bool}
    (evaluated : Evaluated contents flags)
    (flag : Flag) : EvaluatedFlag contents flag (flags flag) := by
  cases flag with
  | zero => exact evaluated.zero
  | sign => exact evaluated.sign
  | parity => exact evaluated.parity
  | carry => exact evaluated.carry
  | overflow => exact evaluated.overflow

theorem carryValue_zero (state : State) :
    carryValue state 0 = fields state .carryFirst := by
  simp [carryValue, fields, Field.read, Field.address, Field.offset,
    Field.bytes, contextAddress]

theorem carryValue_one (state : State) :
    carryValue state 1 = fields state .carrySecond := by
  simp only [carryValue, fields, Field.read, Field.address, Field.offset,
    Field.bytes, contextAddress, add_assoc]
  rfl

theorem overflowValue_zero (state : State) :
    overflowValue state 0 = fields state .overflowFirst := by
  simp [overflowValue, fields, Field.read, Field.address, Field.offset,
    Field.bytes, contextAddress]

theorem overflowValue_one (state : State) :
    overflowValue state 1 = fields state .overflowSecond := by
  simp only [overflowValue, fields, Field.read, Field.address, Field.offset,
    Field.bytes, contextAddress, add_assoc]
  rfl

end FlagInfo

/-! ## Code for the flags -/

namespace Instruction

/-- Code that evaluates a flag in `t4`. -/
def evaluate : Flag -> List Inst
  | .carry => evaluateCarry
  | .zero => evaluateZero .t4
  | .sign => evaluateSign .t4 .t5
  | .overflow => evaluateOverflow
  | .parity => evaluateParity .t4 .t5

end Instruction

open Instruction

section Evaluation

variable {env : Environment} {state : State}

/-- The address of a field as it is loaded. -/
theorem fieldAddress_eq (field : Field) (state : State) :
    state.get contextAddress + signedImm (field.offset.setWidth 16) =
      field.address state := by
  rw [signedImm_setWidth _ (by decide), field.signedImm_offset]
  rfl

theorem and_one (value : Word) :
    value &&& signedImm (1 : BitVec 16) = bit (value.getLsbD 0) := by
  have one : signedImm (1 : BitVec 16) = 1#64 := by decide
  rw [one, bit]
  apply BitVec.eq_of_toNat_eq
  rw [BitVec.toNat_and, BitVec.getLsbD, Nat.testBit_zero]
  simp only [BitVec.toNat_ofNat, Nat.reducePow, Nat.one_mod, Nat.and_one_is_mod]
  split <;> simp_all

theorem bit_beq_zero (condition : Bool) :
    (bit condition == 0) = !condition := by
  cases condition <;> rfl

theorem evaluateZero_value
    (pc : Word)
    (state : State)
    {dest : Register}
    (nonzero : dest ≠ .zero) :
    (applyAll pc state (evaluateZero dest)).get dest =
      bit (fields state .zeroValue == 0) := by
  have address := fieldAddress_eq .zeroValue state
  simp only [Field.offset] at address
  simp only [evaluateZero, ld_eq, applyAll_cons, applyAll_nil, apply_load,
    apply_seqz, State.set_get_self _ _ nonzero, address]
  rfl

theorem evaluateSign_value
    (pc : Word)
    (state : State)
    {dest temp : Register}
    (destNonzero : dest ≠ .zero)
    (tempNonzero : temp ≠ .zero)
    (different : temp ≠ dest)
    (notContext : temp ≠ contextAddress) :
    (applyAll pc state (evaluateSign dest temp)).get dest =
      bit ((fields state .signValue).getLsbD
        (shiftAmount (fields state .signSize))) := by
  have value := fieldAddress_eq .signValue state
  have size := fieldAddress_eq .signSize state
  simp only [Field.offset] at value size
  simp only [evaluateSign, ld_eq, lbu_eq, applyAll_cons, applyAll_nil,
    apply_load, apply_srl, apply_andi, State.set_get_self _ _ destNonzero,
    State.set_get_self _ _ tempNonzero, State.set_get_of_ne _ _ different,
    State.set_get_of_ne _ _ notContext.symm, State.set_mem, value, size,
    and_one, BitVec.getLsbD_ushiftRight, Nat.add_zero]
  rfl

theorem evenParity_eq (value : Word) :
    evenParity value =
      !(value.getLsbD 0 ^^ value.getLsbD 4 ^^ (value.getLsbD 2 ^^
        value.getLsbD 6) ^^ (value.getLsbD 1 ^^ value.getLsbD 5 ^^
          (value.getLsbD 3 ^^ value.getLsbD 7))) := by
  simp only [evenParity, List.range, List.range.loop, List.countP_cons,
    List.countP_nil]
  cases value.getLsbD 0 <;> cases value.getLsbD 1 <;>
    cases value.getLsbD 2 <;> cases value.getLsbD 3 <;>
    cases value.getLsbD 4 <;> cases value.getLsbD 5 <;>
    cases value.getLsbD 6 <;> cases value.getLsbD 7 <;> rfl

theorem evaluateParity_value
    (pc : Word)
    (state : State)
    {dest temp : Register}
    (destNonzero : dest ≠ .zero)
    (tempNonzero : temp ≠ .zero)
    (different : dest ≠ temp) :
    (applyAll pc state (evaluateParity dest temp)).get dest =
      bit (evenParity (fields state .parityValue)) := by
  have address := fieldAddress_eq .parityValue state
  simp only [Field.offset] at address
  have four : ((4 : BitVec 8).setWidth 6).toNat = 4 := by decide
  have two : ((2 : BitVec 8).setWidth 6).toNat = 2 := by decide
  have one : ((1 : BitVec 8).setWidth 6).toNat = 1 := by decide
  simp only [evaluateParity, lbu_eq, applyAll_cons, applyAll_nil, apply_load,
    apply_srli, apply_xor, apply_andi, apply_seqz,
    State.set_get_self _ _ destNonzero, State.set_get_self _ _ tempNonzero,
    State.set_get_of_ne _ _ different, address, and_one, four, two, one,
    evenParity_eq]
  simp only [BitVec.getLsbD_xor, BitVec.getLsbD_ushiftRight, Nat.add_zero,
    Nat.reduceAdd, bit_beq_zero]
  rfl

/-- Straight code that computes a flag into scratch registers. -/
theorem evaluates_of_straight
    {code : List Inst}
    {flag : Bool}
    (permits : env.PermitsEverything)
    (isScratch : code.all Stub.isScratch = true)
    (value : (applyAll env.origin state code).get .t4 = bit flag) :
    Evaluates env code state flag := by
  have straight : ∀ inst ∈ code, inst.isStraight = true :=
    fun inst member => (Bool.and_eq_true_iff.mp
      (List.all_eq_true.mp isScratch inst member)).1
  refine ⟨_, Environment.exits_straight straight (permits.permitsAll _ _),
    value, Stub.applyAll_mem_of_isScratch isScratch _ _, ?_⟩
  intro register outside
  apply Stub.applyAll_get_of_isScratch isScratch
  simp only [evaluationScratch, Stub.scratch, List.mem_cons,
    List.not_mem_nil, or_false, not_or] at outside ⊢
  exact ⟨outside.1, outside.2.1, outside.2.2.1⟩

/-- The code for a flag returns the value that the fields give it. -/
theorem evaluates_of_evaluatedFlag
    {runtime : JumpTable.Runtime}
    {flag : Flag}
    {value : Bool}
    (permits : env.PermitsEverything)
    (aligned : TableAligned state)
    (evaluated : EvaluatedFlag (fields state) flag value) :
    Evaluates (JumpTable.dispatch runtime env) (evaluate flag) state value := by
  have permits : (JumpTable.dispatch runtime env).PermitsEverything := permits
  cases flag with
  | zero =>
      apply evaluates_of_straight permits (by decide)
      rw [evaluated]
      exact evaluateZero_value _ _ (by decide)
  | sign =>
      apply evaluates_of_straight permits (by decide)
      rw [evaluated]
      exact evaluateSign_value _ _ (by decide) (by decide) (by decide)
        (by decide)
  | parity =>
      apply evaluates_of_straight permits (by decide)
      rw [evaluated]
      exact evaluateParity_value _ _ (by decide) (by decide) (by decide)
  | carry =>
      obtain ⟨entry, operation, value⟩ := evaluated
      rw [← carryValue_zero, ← carryValue_one] at value
      exact evaluateCarry_entry permits aligned operation value
  | overflow =>
      obtain ⟨entry, operation, value⟩ := evaluated
      rw [← overflowValue_zero, ← overflowValue_one] at value
      exact evaluateOverflow_entry permits aligned operation value

@[inherit_doc evaluates_of_evaluatedFlag]
theorem evaluates_of_evaluated
    {runtime : JumpTable.Runtime}
    {flags : Flag -> Bool}
    (permits : env.PermitsEverything)
    (aligned : TableAligned state)
    (evaluated : Evaluated (fields state) flags)
    (flag : Flag) :
    Evaluates (JumpTable.dispatch runtime env) (evaluate flag) state
      (flags flag) :=
  evaluates_of_evaluatedFlag permits aligned (evaluated.flag flag)

/-- A flag has one value only. -/
theorem Evaluates.unique
    {code : List Inst}
    {first second : Bool}
    (firstEvaluates : Evaluates env code state first)
    (secondEvaluates : Evaluates env code state second) :
    first = second := by
  obtain ⟨final, ends, value, -, -⟩ := firstEvaluates
  obtain ⟨other, otherEnds, otherValue, -, -⟩ := secondEvaluates
  have same : final = other := by simpa using ends.unique otherEnds
  rw [same, otherValue] at value
  cases first <;> cases second <;> first | rfl | cases value

end Evaluation

end Oxtra

import Oxtra.Instruction.FieldSparing
import Oxtra.Instructions.Subtraction

/-!
# Operations on one operand

`INC`, `DEC`, `NEG` and `NOT` on registers.  `INC` and `DEC` keep the carry
flag, and `NOT` keeps all flags.
-/

namespace Oxtra

open RiscV
open Encoding
open Helper
open FlagInfo
open Instruction
open Fadec (Operand OperandSize)

namespace UnaryOperation

/-! ## Results -/

section Results

variable {bits : Nat} (value : BitVec bits)

/-- The result of an operation on x86. -/
def result : UnaryOperation -> BitVec bits
  | inc => value + 1
  | dec => value - 1
  | neg => -value
  | not => ~~~value

/-- The operation overflows on signed numbers. -/
def overflows : UnaryOperation -> Bool
  | inc => ¬ Wrapped.Fits bits (value.toInt + 1)
  | dec => ¬ Wrapped.Fits bits (value.toInt - 1)
  | neg => ¬ Wrapped.Fits bits (-value.toInt)
  | not => false

/-- The flags on x86, as far as an operation changes them.  The carry flag is
changed by `NEG` only. -/
def flags (operation : UnaryOperation) : Flag -> Bool :=
  resultFlags (operation.result value) (value ≠ 0) (operation.overflows value)

end Results

/-- The low bits of the word are those of the result. -/
theorem setWidth_word
    (operation : UnaryOperation)
    {size : OperandSize}
    (value : Word) :
    (operation.word value).setWidth size.bits =
      operation.result (value.setWidth size.bits) := by
  have one : (1 : Word).setWidth size.bits = 1 :=
    BitVec.setWidth_ofNat_of_le size.bits_le 1
  cases operation with
  | inc => rw [word, result, BitVec.setWidth_add _ _ size.bits_le, one]
  | dec => rw [word, result, setWidth_sub, one]
  | neg => exact BitVec.setWidth_neg_of_le size.bits_le
  | not => exact BitVec.setWidth_not size.bits_le

/-- A decrement and a negation overflow for the least operand only. -/
theorem fits_pred_iff
    {bits : Nat}
    (value : BitVec bits) :
    (Wrapped.Fits bits (value.toInt - 1) ↔ value.toInt ≠ -2 ^ (bits - 1)) ∧
      (Wrapped.Fits bits (-value.toInt) ↔
        value.toInt ≠ -2 ^ (bits - 1)) := by
  have lower := BitVec.le_toInt value
  have upper := BitVec.toInt_lt (x := value)
  simp only [Wrapped.Fits]
  omega

/-! ## Lazy information -/

/-- The fields after an operation. -/
def contents
    (size : OperandSize)
    (first : Word)
    (contents : Field -> Word) : UnaryOperation -> Field -> Word
  | inc =>
      overflowSlots.write (some (.overflowInc size.width)) (some first) none
        contents
  | dec =>
      overflowSlots.write (some (.overflowDecNeg size.width)) (some first) none
        contents
  | neg =>
      overflowSlots.write (some (.overflowDecNeg size.width)) (some first) none
        (carrySlots.write (some (.carryNeg size.width)) (some first) none
          contents)
  | not => contents

section Fields

variable {inst : Instruction} {operation : UnaryOperation}
variable {dst : Register}
variable (dstScratch : Scratch dst) (dstNotTemp : dst ≠ .t4)

include dstScratch

/-- The computation itself keeps the fields. -/
theorem fields_computation
    {computation : Inst}
    (computes : computation.isComputation = true)
    (target : computation.target = some dst)
    (pc : Word)
    (state : State) :
    fields (applyAll pc state [computation]) = fields state :=
  fields_computesInto pc state
    (ComputesInto.singleton computes target (List.mem_singleton_self dst))
    (by simpa using dstScratch.2.symm)

include dstNotTemp

theorem execute_fields
    (declared : inst.updateFlags =
      (InstructionClass.unaryOperation operation).declaredUpdate)
    (pc : Word)
    (state : State) :
    fields (applyAll pc state (operation.execute inst dst)) =
      operation.contents inst.destinationSize (state.get dst)
        (fields state) := by
  cases operation with
  | inc | dec =>
      have overflow : Flag.overflow ∈ inst.updateFlags := by
        rw [declared]
        decide
      rw [execute, increment, applyAll_append,
        fields_computation dstScratch rfl rfl]
      exact inst.updateOverflow_fields overflow pc state _
        (fun _ => by decide) (by simpa) (by simp)
  | neg =>
      have carry : Flag.carry ∈ inst.updateFlags := by
        rw [declared]
        decide
      have overflow : Flag.overflow ∈ inst.updateFlags := by
        rw [declared]
        decide
      rw [execute, negate, applyAll_append,
        fields_computation dstScratch rfl rfl]
      exact inst.updateBoth_fields carry overflow pc state
        (fun _ => by decide) (fun _ => by decide) (by simpa)
  | not => exact fields_computation dstScratch rfl rfl pc state

omit dstNotTemp in
/-- The computation is behind the updates. -/
theorem execute_split (inst : Instruction) (operation : UnaryOperation) :
    ∃ updates computation,
      operation.execute inst dst = updates ++ [computation] ∧
        UpdatesFields [.t4] updates ∧
        ∀ pc state, (computation.apply pc state).get dst =
          operation.word (state.get dst) := by
  cases operation with
  | inc =>
      refine ⟨_, addi dst dst 1, rfl, inst.updateOverflow_updates _ _ _ _, ?_⟩
      intro pc state
      rw [apply_addi, State.set_get_self _ _ dstScratch.1, word]
      rfl
  | dec =>
      have minusOne : signedImm (-1 : BitVec 16) = -1 := by decide
      refine ⟨_, addi dst dst (-1), rfl,
        inst.updateOverflow_updates _ _ _ _, ?_⟩
      intro pc state
      rw [apply_addi, State.set_get_self _ _ dstScratch.1, word, minusOne,
        BitVec.sub_eq_add_neg]
  | neg =>
      refine ⟨_, Encoding.neg dst dst, rfl, Updates.append (inst.updateCarry_updates _ _ _ _)
        (inst.updateOverflow_updates _ _ _ _), ?_⟩
      intro pc state
      rw [apply_neg, State.set_get_self _ _ dstScratch.1]
      rfl
  | not =>
      refine ⟨[], _, rfl, Updates.nil, ?_⟩
      intro pc state
      rw [apply_not, State.set_get_self _ _ dstScratch.1]
      rfl

theorem execute_value (pc : Word) (state : State) :
    (applyAll pc state (operation.execute inst dst)).get dst =
      operation.word (state.get dst) := by
  obtain ⟨updates, computation, code, updating, value⟩ :=
    execute_split dstScratch inst operation
  rw [code, applyAll_append, applyAll_cons, applyAll_nil, value,
    updating.get _ _ (by simpa)]

end Fields

/-! ## Evaluated flags -/

section Flags

variable {operation : UnaryOperation} {size : OperandSize}

/-- The flags that an operation declares are evaluated from the fields that it
leaves. -/
theorem evaluatedFlag_contents
    {flag : Flag}
    (updated : flag ∈
      (InstructionClass.unaryOperation operation).declaredUpdate)
    {first value : Word}
    (computed : value = operation.word first)
    (before : Field -> Word) :
    EvaluatedFlag
      (resultContents (InstructionClass.unaryOperation operation).declaredUpdate
        value size (operation.contents size first before))
      flag (operation.flags (first.setWidth size.bits) flag) := by
  have result := @setWidth_word operation size first
  rw [← computed] at result
  have ofResult : flag ≠ .carry -> flag ≠ .overflow -> EvaluatedFlag
      (resultContents
        (InstructionClass.unaryOperation operation).declaredUpdate value size
        (operation.contents size first before))
      flag (operation.flags (first.setWidth size.bits) flag) := by
    intro notCarry notOverflow
    rw [flags, ← result]
    exact evaluatedFlag_result updated notCarry notOverflow _ _ _ _ _
  cases flag with
  | zero => exact ofResult (by decide) (by decide)
  | sign => exact ofResult (by decide) (by decide)
  | parity => exact ofResult (by decide) (by decide)
  | carry =>
      cases operation with
      | neg =>
          refine ⟨.carryNeg size.width, rfl, ?_⟩
          change (JumpTable.Entry.carryNeg size.width).carryFlag first _ = _
          simp only [JumpTable.Entry.carryFlag, unsignedPart_size]
          simp [flags, resultFlags, ← BitVec.toNat_inj]
      | _ => exact absurd updated (by decide)
  | overflow =>
      obtain ⟨pred, negated⟩ := fits_pred_iff (first.setWidth size.bits)
      cases operation with
      | inc =>
          refine ⟨.overflowInc size.width, rfl, ?_⟩
          change (JumpTable.Entry.overflowInc size.width).overflowFlag first
            _ = _
          simp only [JumpTable.Entry.overflowFlag, signedPart_size,
            OperandSize.width_bits, flags, resultFlags, overflows, decide_not]
      | dec | neg =>
          refine ⟨.overflowDecNeg size.width, rfl, ?_⟩
          change (JumpTable.Entry.overflowDecNeg size.width).overflowFlag first
            _ = _
          simp only [JumpTable.Entry.overflowFlag, signedPart_size,
            OperandSize.width_bits, flags, resultFlags, overflows, pred,
            negated, ne_eq, not_not]
      | not => exact absurd updated (by decide)

/-- The other flags are evaluated from the same fields as before. -/
theorem resultContents_of_not_mem
    {field : Field}
    (kept : field.flag ∉
      (InstructionClass.unaryOperation operation).declaredUpdate)
    (first value : Word)
    (before : Field -> Word) :
    resultContents (InstructionClass.unaryOperation operation).declaredUpdate
      value size (operation.contents size first before) field =
        before field := by
  cases operation with
  | inc | dec =>
      cases field <;> first | rfl | exact absurd (by decide) kept
  | neg => exact absurd Flags.mem_all kept
  | not => cases field <;> rfl

end Flags

end UnaryOperation

/-! ## Operations on registers -/

/-- A result is in the destination and the other registers of the guest are
kept.  The flags that the instruction updates have these values when they are
evaluated, wherever that is; the others are what they were. -/
structure Instruction.Outcome
    (inst : Instruction)
    (runtime : JumpTable.Runtime)
    (result : BitVec inst.destinationSize.bits)
    (flags : Flag -> Bool)
    (state final : State) : Prop where
  registers : ∀ reg, final.get (mapReg reg) =
    writtenRegisters (inst.getOperand 0) (result.setWidth 64) state reg
  updated : ∀ flag ∈ inst.updateFlags, ∀ later : Environment,
    later.PermitsEverything ->
      Evaluates (JumpTable.dispatch runtime later) (evaluate flag) final
        (flags flag)
  kept : ∀ flag ∉ inst.updateFlags, ∀ value,
    EvaluatedFlag (fields state) flag value ->
      ∀ later : Environment, later.PermitsEverything ->
        Evaluates (JumpTable.dispatch runtime later) (evaluate flag) final
          value
  keptFields : ∀ field : Field, field.flag ∉ inst.updateFlags ->
    fields final field = fields state field

/-- A flag depends on its own fields only. -/
theorem FlagInfo.EvaluatedFlag.congr
    {first second : Field -> Word}
    {flag : Flag}
    {value : Bool}
    (evaluated : EvaluatedFlag first flag value)
    (same : ∀ field : Field, field.flag = flag ->
      second field = first field) :
    EvaluatedFlag second flag value := by
  cases flag with
  | zero =>
      rw [EvaluatedFlag, same .zeroValue rfl]
      exact evaluated
  | sign =>
      rw [EvaluatedFlag, same .signValue rfl, same .signSize rfl]
      exact evaluated
  | parity =>
      rw [EvaluatedFlag, same .parityValue rfl]
      exact evaluated
  | carry =>
      rw [EvaluatedFlag, same .carryOperation rfl, same .carryFirst rfl,
        same .carrySecond rfl]
      exact evaluated
  | overflow =>
      rw [EvaluatedFlag, same .overflowOperation rfl,
        same .overflowFirst rfl, same .overflowSecond rfl]
      exact evaluated

namespace UnaryOperation

section Code

variable {inst : Instruction} {operation : UnaryOperation}
variable (form : inst.RegisterDestination)

include form

theorem generate_eq :
    operation.generate inst =
      inst.translateFirst.code ++
        operation.execute inst inst.workRegister ++
        inst.finishThrough .t2 := by
  obtain ⟨size, number, type, first⟩ := form.destination
  have noAddress : inst.translateFirst.address = .zero := by
    rw [translateFirst, first, translateOperand]
    split <;> rfl
  have value := form.firstValue
  simp only [translateFirst] at value noAddress
  simp only [generate, finishThrough, resultUpdates, translateFirst, value,
    noAddress, List.append_assoc]

/-- The operations on one operand leave the result and the flags of x86 behind
when the destination is a register. -/
theorem generate_outcome
    (declared : inst.updateFlags =
      (InstructionClass.unaryOperation operation).declaredUpdate)
    (runtime : JumpTable.Runtime)
    {env : Environment}
    (permits : env.PermitsEverything)
    {state : State}
    (aligned : TableAligned state) :
    ∃ final, (JumpTable.dispatch runtime env).Exits
        (operation.generate inst) state (.ended final) ∧
      inst.Outcome runtime (operation.result (inst.firstBits state))
        (operation.flags (inst.firstBits state)) state final := by
  obtain ⟨work, workOutside⟩ := form.workRegister_scratch
  have workNotTemp := form.workRegister_ne
    (by decide : Register.t4 ∈ [Register.t2, .t3, .t4, .t5, .t6,
      jumpTableAddress])
  let loading := inst.translateFirst.code
  let prepared := applyAll env.origin state loading
  let pc := (env.shift loading.length).origin
  let executed := applyAll pc prepared
    (operation.execute inst inst.workRegister)
  have updates := @execute_updates inst inst.workRegister operation
  have loads := form.firstComputes
  have first : (prepared.get inst.workRegister).setWidth
      inst.destinationSize.bits = inst.firstBits state :=
    form.firstLoaded _ _
  have shifted : (JumpTable.dispatch runtime
      (env.shift loading.length)).PermitsEverything := permits
  have exits := @Environment.exits_straight
    (JumpTable.dispatch runtime (env.shift loading.length)) prepared _
    updates.straight (shifted.permitsAll _ _)
  obtain ⟨final, complete, finished, table⟩ := form.completes
    (Or.inl rfl : Register.t2 = .t2 ∨ Register.t2 = .t3) permits
    (loads.mono (by simp)) exits
    (fun register outside => updates.get _ _ (by
      simp only [executionScratch, List.mem_cons, List.not_mem_nil, or_false,
        not_or] at outside ⊢
      exact ⟨outside.1, outside.2.2.1⟩))
  have finalAligned : TableAligned final := by
    rw [TableAligned, table]
    exact aligned
  have value : executed.get inst.workRegister =
      operation.word (prepared.get inst.workRegister) :=
    execute_value work workNotTemp pc prepared
  have result : (executed.get inst.workRegister).setWidth
      inst.destinationSize.bits =
        operation.result (inst.firstBits state) := by
    rw [value, setWidth_word, first]
  have contents : fields final = resultContents
      (InstructionClass.unaryOperation operation).declaredUpdate
      (executed.get inst.workRegister) inst.destinationSize
      (operation.contents inst.destinationSize
        (prepared.get inst.workRegister) (fields state)) := by
    have loaded : fields prepared = fields state :=
      fields_computesInto _ _ loads (by decide)
    rw [← loaded, ← execute_fields work workNotTemp declared pc prepared,
      ← declared]
    exact finished.fields
  have kept : ∀ field : Field, field.flag ∉ inst.updateFlags ->
      fields final field = fields state field := by
    intro field notUpdated
    rw [declared] at notUpdated
    rw [contents, resultContents_of_not_mem notUpdated]
  refine ⟨final, ?_, ?_, ?_, ?_, kept⟩
  · rw [generate_eq form]
    exact complete
  · intro reg
    rw [finished.registers]
    exact writtenRegisters_bits form.firstValid result state reg
  · intro flag member later permitsLater
    rw [declared] at member
    have evaluated := @evaluatedFlag_contents operation inst.destinationSize
      flag member _ _ value (fields state)
    rw [← contents, first] at evaluated
    exact evaluates_of_evaluatedFlag permitsLater finalAligned evaluated
  · intro flag notUpdated value evaluated later permitsLater
    apply evaluates_of_evaluatedFlag permitsLater finalAligned
    apply evaluated.congr
    rintro field rfl
    exact kept field notUpdated

end Code

/-- `neg ah` -/
def negAh : Instruction :=
  (InstructionClass.unaryOperation .neg).construct
    { type := .neg
      operands := [.reg .byte 4 .gph] }

theorem generate_outcome_negAh :
    let state := zeroState.set (mapReg 0) 0x8765
    ∃ final, (JumpTable.dispatch (fun _ _ => none) Stub.environment).Exits
        (generate negAh .neg) state (.ended final) ∧
      negAh.Outcome (fun _ _ => none) (result (negAh.firstBits state) .neg)
        (flags (negAh.firstBits state) .neg) state final :=
  generate_outcome ⟨rfl, rfl⟩ rfl _ (fun _ _ => rfl) (by decide)

end UnaryOperation

end Oxtra

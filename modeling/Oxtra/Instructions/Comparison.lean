import Oxtra.Instructions.Subtraction

/-!
# Comparisons

`CMP` is a subtraction that keeps its destination.  The smallest immediate is
the only one for which it computes something else.
-/

namespace Oxtra

open RiscV
open Encoding
open Helper
open FlagInfo
open Instruction
open Fadec (Operand OperandSize)

/-! ## The code of `CMP` -/

/-- The operation between the loads of the operands and the updates, with the
register of its result. -/
def Comparable.execute
    (operation : Comparable)
    (inst : Instruction) : List Inst × Register :=
  if inst.translateSource.value ≠ .zero then
    operation.executeRegister inst inst.workRegister
      inst.translateSource.value
  else
    operation.executeImmediate inst inst.workRegister inst.immediate

theorem Comparable.generate_eq
    (operation : Comparable)
    {inst : Instruction}
    (operands : inst.OnRegisters) :
    operation.generate inst =
      inst.translateSource.code ++ inst.translateFirst.code ++
        (operation.execute inst).1 ++
        inst.resultUpdates (operation.execute inst).2 inst.destinationSize
          .t3 := by
  have value := operands.inRegister.firstValue
  simp only [Instruction.translateFirst] at value
  simp only [generate, execute, Instruction.resultUpdates,
    Instruction.translateFirst, value, List.append_assoc]

/-- The register in which a comparison with an immediate is made. -/
def Cmp.resultRegister (dst : Register) (imm : BitVec 64) : Register :=
  if imm = 0 then dst else .t5

/-- The comparison with an immediate.  Both instructions for the smallest one
read the operand. -/
def Cmp.compareImmediate (dst : Register) (imm : BitVec 64) : List Inst :=
  if imm = 0 then
    []
  else if imm = -0x800 then
    [addi .t5 dst 1, addi .t5 dst ((-imm).setWidth 16)]
  else
    [addi .t5 dst ((-imm).setWidth 16)]

theorem Cmp.executeImmediate_difference
    (inst : Instruction)
    (dst : Register) :
    Cmp.executeImmediate inst dst inst.immediate =
      (immediateDifference inst dst (resultRegister dst inst.immediate)
        (compareImmediate dst inst.immediate),
        resultRegister dst inst.immediate) := by
  unfold executeImmediate immediateDifference resultRegister compareImmediate
  by_cases zero : inst.immediate = 0
  · simp only [zero, if_true, List.append_assoc]
  · simp only [zero, if_false, List.append_assoc]

theorem Cmp.compareImmediate_computesInto
    (dst : Register)
    (imm : BitVec 64) :
    ComputesInto [.t5] (compareImmediate dst imm) := by
  unfold compareImmediate
  repeat' split
  · exact ComputesInto.nil
  · exact ComputesInto.cons_iff.mpr
      ⟨Inst.computesInto_of_target rfl rfl (by simp),
        ComputesInto.singleton rfl rfl (by simp)⟩
  · exact ComputesInto.singleton rfl rfl (by simp)

/-- The word that a comparison with an immediate leaves. -/
def Cmp.comparedWord (value imm : Word) : Word :=
  if imm = -0x800 then value + imm else value - imm

theorem Cmp.compareImmediate_value
    {inst : Instruction}
    (small : inst.smallImmediate = true)
    {dst : Register}
    (notTemp : dst ≠ .t5)
    (pc : Word)
    (state : State) :
    (applyAll pc state (compareImmediate dst inst.immediate)).get
        (resultRegister dst inst.immediate) =
      comparedWord (state.get dst) inst.immediate := by
  by_cases zero : inst.immediate = 0
  · have notLeast : ¬ (0 : BitVec 64) = -0x800 := by decide
    simp only [compareImmediate, resultRegister, comparedWord, zero,
      if_true, if_neg notLeast, applyAll_nil]
    exact (BitVec.sub_zero _).symm
  · by_cases least : inst.immediate = -0x800
    · have step : signedImm ((-(-0x800 : BitVec 64)).setWidth 16) =
          (-0x800 : Word) := by decide
      have notZero : ¬ (-0x800 : BitVec 64) = 0 := by decide
      simp only [compareImmediate, resultRegister, comparedWord, least,
        if_true, if_neg notZero, applyAll_cons, applyAll_nil, apply_addi,
        State.set_get_self _ _ (by decide : Register.t5 ≠ .zero),
        State.set_get_of_ne _ _ notTemp, step]
    · simp only [compareImmediate, resultRegister, comparedWord,
        if_neg least, if_neg zero, applyAll_cons, applyAll_nil, apply_addi,
        State.set_get_self _ _ (by decide : Register.t5 ≠ .zero),
        signedImm_setWidth _ (by decide : 12 ≤ 16),
        inst.signedImm_neg_immediate small least, BitVec.sub_eq_add_neg]

/-! ## Result of a comparison -/

/-- The smallest immediate is added instead of subtracted. -/
def comparedBits (inst : Instruction) (state : State) :
    BitVec inst.destinationSize.bits :=
  if inst.immediateSource = true ∧ inst.immediate = -0x800 then
    inst.firstBits state + inst.secondBits state
  else
    inst.firstBits state - inst.secondBits state

section Compare

variable {inst : Instruction} {runtime : JumpTable.Runtime}
variable {env : Environment} {state prepared : State}

/-- `CMP` leaves its result in a temporary, or its destination is the
result. -/
theorem cmp_subtracts
    (operands : inst.RegisterOperands)
    (all : inst.updateFlags = Flags.all)
    (loaded : inst.Prepared state prepared) :
    ∃ value, value.setWidth inst.destinationSize.bits =
        comparedBits inst state ∧
      Subtracts inst (Comparable.execute .cmp inst).1 [.t5]
        (Comparable.execute .cmp inst).2 prepared (inst.firstBits state)
        (inst.secondBits state) value := by
  obtain ⟨work, workOutside⟩ := operands.inRegister.workRegister_scratch
  simp only [executionScratch, List.mem_cons, List.not_mem_nil, or_false,
    not_or] at workOutside
  obtain ⟨-, workNotTemp, workNotResult, -, -⟩ := workOutside
  have notContext : contextAddress ∉ [Register.t5] := by decide
  rw [comparedBits, ← loaded.first]
  by_cases immediate : inst.immediateSource = true
  · obtain ⟨isImm, small⟩ := Bool.and_eq_true_iff.mp immediate
    let result := Cmp.resultRegister inst.workRegister inst.immediate
    have code : Comparable.execute .cmp inst =
        (immediateDifference inst inst.workRegister result
          (Cmp.compareImmediate inst.workRegister inst.immediate),
          result) := by
      rw [Comparable.execute,
        if_neg (not_not_intro (operands.source_eq_zero.mpr immediate))]
      exact Cmp.executeImmediate_difference inst inst.workRegister
    have resultScratch : result ≠ .zero ∧ result ≠ .t4 := by
      simp only [result, Cmp.resultRegister]
      split
      · exact ⟨work.1, workNotTemp⟩
      · decide
    refine ⟨Cmp.comparedWord (prepared.get inst.workRegister)
      inst.immediate, ?_, ?_⟩
    · rw [inst.secondBits_immediate isImm, Cmp.comparedWord]
      by_cases least : inst.immediate = -0x800
      · rw [if_pos least, if_pos ⟨immediate, least⟩,
          BitVec.setWidth_add _ _ inst.destinationSize.bits_le]
      · rw [if_neg least, if_neg (fun both => least both.2), setWidth_sub]
    · rw [code]
      apply immediateDifference_subtracts all
        (Cmp.compareImmediate_computesInto _ _) notContext workNotTemp
        resultScratch.1 resultScratch.2 ?_ immediate
      intro pc between same
      rw [Cmp.compareImmediate_value small workNotResult,
        same _ workNotTemp]
  · have noImmediate : inst.immediateSource = false := by
      simpa using immediate
    obtain ⟨source, sourceOutside⟩ := operands.source_scratch noImmediate
    have sourceNotTemp : inst.translateSource.value ≠ .t4 := by
      rintro same
      exact sourceOutside (same ▸ by decide)
    have code : Comparable.execute .cmp inst =
        (registerDifference inst inst.workRegister
          inst.translateSource.value .t5
          [sub .t5 inst.workRegister inst.translateSource.value], .t5) := by
      rw [Comparable.execute, if_pos source.1]
      rfl
    rw [if_neg (fun both => immediate both.1), ← loaded.second noImmediate]
    refine ⟨prepared.get inst.workRegister -
      prepared.get inst.translateSource.value, ?_, ?_⟩
    · exact setWidth_sub _ _ _
    · rw [code]
      apply registerDifference_subtracts all
        (ComputesInto.singleton rfl rfl (by simp)) notContext workNotTemp
        (by decide) (by decide) ?_ sourceNotTemp noImmediate
      intro pc between same
      rw [applyAll_cons, applyAll_nil, apply_sub,
        State.set_get_self _ _ (by decide), same _ workNotTemp,
        same _ sourceNotTemp]

/-- The result is not in the temporary of the updates. -/
theorem Comparable.result_ne
    (operands : inst.RegisterOperands) :
    (Comparable.execute .cmp inst).2 ≠ .t3 := by
  obtain ⟨-, workOutside⟩ := operands.inRegister.workRegister_scratch
  have workNotTemp : inst.workRegister ≠ .t3 := by
    rintro same
    exact workOutside (same ▸ by decide)
  unfold Comparable.execute
  split
  · exact (by decide : Register.t5 ≠ .t3)
  · simp only [Comparable.executeImmediate, Cmp.executeImmediate_difference,
      Cmp.resultRegister]
    split
    · exact workNotTemp
    · decide

/-- Some code keeps all registers of the guest, and the flags have these values
when they are evaluated behind it. -/
def Instruction.Compares
    (runtime : JumpTable.Runtime)
    (env : Environment)
    (code : List Inst)
    (flags : Flag -> Bool)
    (state : State) : Prop :=
  ∃ final, (JumpTable.dispatch runtime env).Exits code state (.ended final) ∧
    (∀ reg, final.get (mapReg reg) = state.get (mapReg reg)) ∧
    ∀ later : Environment, later.PermitsEverything -> ∀ flag,
      Evaluates (JumpTable.dispatch runtime later) (evaluate flag) final
        (flags flag)

/-- A comparison keeps the registers and leaves the flags of its result, if its
operation updates fields only and makes them together with the updates behind
it. -/
theorem Comparable.compares_of_updates
    (operation : Comparable)
    (operands : inst.RegisterOperands)
    (all : inst.updateFlags = Flags.all)
    (permits : env.PermitsEverything)
    (aligned : TableAligned state)
    (resultKept : (operation.execute inst).2 ≠ .t3)
    (updates : UpdatesFields [.t4, .t5] (operation.execute inst).1)
    {flags : Flag -> Bool}
    (evaluated : ∀ prepared, inst.Prepared state prepared -> ∀ pc,
      let executed := applyAll pc prepared (operation.execute inst).1
      Evaluated
        (resultContents Flags.all (executed.get (operation.execute inst).2)
          inst.destinationSize (fields executed)) flags) :
    Instruction.Compares runtime env (operation.generate inst) flags state := by
  let loading := inst.translateSource.code ++ inst.translateFirst.code
  let execution := operation.execute inst
  let code := loading ++ execution.1 ++
    inst.resultUpdates execution.2 inst.destinationSize .t3
  have loads : ComputesInto [.t2, .t0] loading :=
    ComputesInto.append_iff.mpr
      ⟨operands.sourceComputes.mono (by simp),
        operands.inRegister.firstComputes.mono (by simp)⟩
  let prepared := applyAll env.origin state loading
  have finishes := inst.resultUpdates_updates execution.2
    inst.destinationSize .t3
  have everything : UpdatesFields [.t0, .t2, .t3, .t4, .t5] code :=
    Updates.append
      (Updates.append ((UpdatesFields.computeInto loads).mono (by simp))
        (updates.mono (by simp)))
      (finishes.mono (by simp))
  let final := applyAll env.origin state code
  have dispatched : (JumpTable.dispatch runtime env).PermitsEverything :=
    permits
  have finalAligned : TableAligned final := by
    rw [TableAligned, everything.get _ _ (by decide)]
    exact aligned
  let pc := env.origin + BitVec.ofNat 64 (4 * loading.length)
  let executed := applyAll pc prepared execution.1
  have contents : fields final =
      resultContents Flags.all (executed.get execution.2)
        inst.destinationSize (fields executed) := by
    rw [show final = applyAll env.origin state code from rfl,
      applyAll_append, applyAll_append,
      inst.resultUpdates_fields _ _ (by decide : Scratch .t3) resultKept, all]
  have leaves := evaluated prepared (operands.prepared env.origin state) pc
  refine ⟨final, ?_, fun reg => everything.get _ _ (by simp), ?_⟩
  · rw [Comparable.generate_eq operation operands.toOnRegisters]
    exact Environment.exits_straight everything.straight
      (dispatched.permitsAll _ _)
  · intro later permitsLater flag
    exact evaluates_of_evaluated permitsLater finalAligned
      (contents ▸ leaves) flag

/-- `CMP` keeps the registers and leaves the flags of its result. -/
theorem comparison_compares
    (operands : inst.RegisterOperands)
    (all : inst.updateFlags = Flags.all)
    (permits : env.PermitsEverything)
    (aligned : TableAligned state) :
    Instruction.Compares runtime env (Comparable.generate inst .cmp)
      (differenceFlags inst (inst.firstBits state) (inst.secondBits state)
        (comparedBits inst state)) state := by
  obtain ⟨_, -, first⟩ := cmp_subtracts operands all
    (operands.prepared env.origin state)
  refine Comparable.compares_of_updates .cmp operands all permits aligned
    (Comparable.result_ne operands) (first.updates.mono (by simp)) ?_
  intro prepared loaded pc
  obtain ⟨value, bits, subtracts⟩ := cmp_subtracts operands all loaded
  simp only [subtracts.computed]
  rw [← bits]
  exact subtracts.evaluated pc

/-- Evaluation determines the flags. -/
theorem Instruction.Compares.unique
    {code : List Inst}
    {first second : Flag -> Bool}
    (permits : env.PermitsEverything)
    (firstCompares : Compares runtime env code first state)
    (secondCompares : Compares runtime env code second state) :
    first = second := by
  obtain ⟨final, exits, -, flags⟩ := firstCompares
  obtain ⟨other, otherExits, -, otherFlags⟩ := secondCompares
  have same : other = final := by
    simpa using otherExits.unique exits
  funext flag
  exact (flags env permits flag).unique
    (same ▸ otherFlags env permits flag)

end Compare

/-! ## Agreement -/

/-- For operands of more than one byte the carry or the sign differs if the
smallest immediate is added instead of subtracted. -/
theorem smallest_differs
    {size : OperandSize}
    (notByte : size ≠ .byte)
    (value : BitVec size.bits) :
    let immediate : BitVec size.bits := (-0x800 : BitVec 64).setWidth size.bits
    (value + immediate).msb = (value - immediate).msb ->
      ¬ (value.toNat < (value + immediate).toNat ↔
        value.toNat < (value - immediate).toNat) := by
  intro immediate sign carry
  rw [BitVec.msb_eq_decide, BitVec.msb_eq_decide, decide_eq_decide] at sign
  have bound := value.isLt
  rw [BitVec.toNat_add, BitVec.toNat_sub] at sign carry
  generalize value.toNat = number at *
  cases size with
  | byte => exact notByte rfl
  | word =>
      have smallest : immediate.toNat = 2 ^ 16 - 0x800 := by decide
      rw [smallest] at sign carry
      simp only [OperandSize.bits, OperandSize.bytes] at *
      omega
  | dword =>
      have smallest : immediate.toNat = 2 ^ 32 - 0x800 := by decide
      rw [smallest] at sign carry
      simp only [OperandSize.bits, OperandSize.bytes] at *
      omega
  | qword =>
      have smallest : immediate.toNat = 2 ^ 64 - 0x800 := by decide
      rw [smallest] at sign carry
      simp only [OperandSize.bits, OperandSize.bytes] at *
      omega

section Agree

variable {inst : Instruction} {state : State}

/-- The flags of the result are those of the difference, unless the smallest
immediate is compared with more than one byte. -/
theorem comparedFlags_eq_iff :
    differenceFlags inst (inst.firstBits state) (inst.secondBits state)
          (comparedBits inst state) =
        differenceFlags inst (inst.firstBits state) (inst.secondBits state)
          (inst.firstBits state - inst.secondBits state) ↔
      ((inst.getOperand 1).isImm = true -> inst.immediate = -0x800 ->
        inst.destinationSize = .byte) := by
  by_cases least : (inst.getOperand 1).isImm = true ∧
      inst.immediate = -0x800
  · obtain ⟨isImm, smallest⟩ := least
    have small : inst.smallImmediate = true := by
      rw [smallImmediate, smallest]
      decide
    have immediate : inst.immediateSource = true := by
      rw [immediateSource, isImm, small]
      rfl
    have second := inst.secondBits_immediate isImm state
    rw [smallest] at second
    rw [comparedBits, if_pos ⟨immediate, smallest⟩, second]
    constructor
    · intro equal _ _
      by_contra notByte
      have sign : (_ : Bool) = _ := congrFun equal .sign
      have carry : (decide _ : Bool) = decide _ := congrFun equal .carry
      exact smallest_differs notByte (inst.firstBits state) sign
        (decide_eq_decide.mp carry)
    · intro byte
      have size := byte isImm smallest
      have zero : (-0x800 : BitVec 64).setWidth inst.destinationSize.bits =
          0 := by
        rw [size]
        decide
      rw [zero]
      congr 1
      exact (BitVec.add_zero _).trans (BitVec.sub_zero _).symm
  · rw [comparedBits, if_neg]
    · exact iff_of_true rfl fun isImm smallest =>
        absurd ⟨isImm, smallest⟩ least
    · rintro ⟨immediate, smallest⟩
      exact least ⟨(Bool.and_eq_true_iff.mp immediate).1, smallest⟩

/-- The code of `CMP` and the code of `SUB` make the same flags if and only if
this holds for the results of both. -/
theorem comparison_agrees_iff_comparedFlags
    (symbols : HostSymbols)
    (operands : inst.RegisterOperands)
    (all : inst.updateFlags = Flags.all)
    {runtime : JumpTable.Runtime}
    {env : Environment}
    (permits : env.PermitsEverything)
    (aligned : TableAligned state) :
    (∃ flags,
      Compares runtime env (Comparable.generate inst .cmp) flags state ∧
        inst.Computes runtime env (BinaryOperation.generate symbols inst .sub)
          (inst.firstBits state - inst.secondBits state) flags state) ↔
      differenceFlags inst (inst.firstBits state) (inst.secondBits state)
          (comparedBits inst state) =
        differenceFlags inst (inst.firstBits state) (inst.secondBits state)
          (inst.firstBits state - inst.secondBits state) := by
  have compares := @comparison_compares inst runtime env state operands all
    permits aligned
  have computes := @subtraction_computes_iff inst runtime env state symbols
    operands all permits aligned
  constructor
  · rintro ⟨flags, compared, subtracted⟩
    rw [(computes flags).mp subtracted]
    exact compares.unique permits compared
  · intro equal
    exact ⟨_, compares, (computes _).mpr equal.symm⟩

/-- `CMP` keeps the registers and makes the flags of `SUB`, unless the smallest
immediate is compared with more than one byte. -/
theorem comparison_agrees_iff
    (symbols : HostSymbols)
    (operands : inst.RegisterOperands)
    (all : inst.updateFlags = Flags.all)
    (runtime : JumpTable.Runtime)
    {env : Environment}
    (permits : env.PermitsEverything)
    (aligned : TableAligned state) :
    (∃ flags,
      Compares runtime env (Comparable.generate inst .cmp) flags state ∧
        inst.Computes runtime env (BinaryOperation.generate symbols inst .sub)
          (inst.firstBits state - inst.secondBits state) flags state) ↔
      ((inst.getOperand 1).isImm = true -> inst.immediate = -0x800 ->
        inst.destinationSize = .byte) := by
  rw [comparison_agrees_iff_comparedFlags symbols operands all permits
    aligned]
  exact comparedFlags_eq_iff

/-- Other immediates are compared as they are subtracted. -/
theorem comparison_agrees_iff_rax :
    let state := zeroState.set (mapReg 0) 0x12345
    ∃ flags,
      Compares (fun _ _ => none) Stub.environment
          (Comparable.generate (subRax (-0x7ff)) .cmp) flags state ∧
        (subRax (-0x7ff)).Computes (fun _ _ => none) Stub.environment
          (BinaryOperation.generate sampleSymbols (subRax (-0x7ff)) .sub)
          ((subRax (-0x7ff)).firstBits state -
            (subRax (-0x7ff)).secondBits state)
          flags state :=
  (comparison_agrees_iff sampleSymbols
    (subRax_registerForm (-0x7ff)).toRegisterOperands rfl _ (fun _ _ => rfl)
    (by decide)).mpr fun _ smallest => absurd smallest (by decide)

/-- `cmp rax, -0x800` makes other flags than `sub rax, -0x800`. -/
theorem cmpRax_disagrees :
    ¬ ∃ flags,
      Compares (fun _ _ => none) Stub.environment
          (Comparable.generate (subRax (-0x800)) .cmp) flags zeroState ∧
        (subRax (-0x800)).Computes (fun _ _ => none) Stub.environment
          (BinaryOperation.generate sampleSymbols (subRax (-0x800)) .sub)
          ((subRax (-0x800)).firstBits zeroState -
            (subRax (-0x800)).secondBits zeroState)
          flags zeroState := by
  rw [comparison_agrees_iff_comparedFlags sampleSymbols
    (subRax_registerForm _).toRegisterOperands rfl (fun _ _ => rfl)
    (by decide), comparedFlags_eq_iff]
  intro byte
  cases byte rfl rfl

end Agree

end Oxtra

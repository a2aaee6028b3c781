import Oxtra.CodeGenerator.UndeclaredFlags
import Oxtra.Instructions.FlagRenewals

/-!
# Flags that an instruction declares

The prediction drops earlier updates of a flag for an instruction whose class
declares an update of it.  The code of the instruction renews the flag, except
where the class leaves the update out or skips it, and where `ADC` evaluates the
carry flag that it stores anew.
-/

namespace Oxtra

open RiscV
open Encoding
open Helper
open FlagInfo

/-! ## Renewed flags -/

/-- Nothing but the code itself stores or loads the lazy information. -/
structure OwnsLazyFlags
    (runtime : JumpTable.Runtime)
    (env : Environment)
    (code : List Inst) : Prop
    extends KeepsLazyFlags runtime env code where
  loads : ∀ field : Field, env.LoadsOutside field.region code

/-- A run renews a flag, whatever was stored for the flag before: what the run
stores decides the flag, and the run does not look at what was stored. -/
structure Renews
    (visited : List (Inst × State))
    (after : State)
    (flag : Flag) : Prop where
  decides : Decides visited after flag
  loads : ∀ visit ∈ visited, ∀ field : Field, field.flag = flag ->
    ¬ visit.1.LoadsFrom field.region visit.2

section Runs

variable {runtime : JumpTable.Runtime} {env : Environment} {code : List Inst}
variable {state after : State} {visited : List (Inst × State)} {flag : Flag}
variable {exit : Exit}

theorem Decides.renews
    (decides : Decides visited after flag)
    (owns : OwnsLazyFlags runtime env code)
    (ignores : ∀ field : Field, field.flag = flag -> IgnoresField field code)
    (traces : (JumpTable.dispatch runtime env).Traces code state visited
      (.ended after)) :
    Renews visited after flag where
  decides := decides
  loads visit member field same := by
    have permitted := traces.permitted visit member
    obtain ⟨steps, -, rfl⟩ := traces
    exact @not_loadsFrom_of_mem_trace _ (JumpTable.dispatch runtime env) _
      field.region_wellPlaced (owns.loads field) (ignores field same) _ _ _ _
      member permitted

theorem Renewing.renews
    (renewing : Renewing flag code)
    (falls : FallsThrough code)
    (owns : OwnsLazyFlags runtime env code)
    (ignores : ∀ field : Field, field.flag = flag -> IgnoresField field code)
    (traces : (JumpTable.dispatch runtime env).Traces code state visited
      (.ended after)) :
    Renews visited after flag :=
  (renewing.decides falls owns.calls owns.stores traces).renews owns ignores
    traces

/-- Code that spares the fields of a flag does not renew it. -/
theorem not_renews_of_spares
    (spares : ∀ field : Field, field.flag = flag -> SparesField field code)
    (traces : env.Traces code state visited exit) :
    ¬ Renews visited after flag := by
  refine fun renews => not_decides_of_not_stored
    (fun visit member field same => ?_) renews.decides
  exact not_isStoredBy_of_spares
    (spares field same _ (traces.mem_code member))

end Runs

/-! ## Instructions -/

namespace Instruction

/-- A run ends behind an instruction: at the end of the code, or in the routine
that continues with the next block. -/
def EndsBehind (inst : Instruction) (exit : Exit) (after : State) : Prop :=
  exit = if inst.instructionClass.endsBlock then
      .left (after.get jumpTableAddress +
        JumpTable.Entry.rerouteStatic.offset.setWidth 64) after
    else
      .ended after

/-- The instruction renews a flag that its class declares.  Products and shifts
by `CL` leave out the flags of the result, divisions and system calls leave out
all flags, and repeated comparisons are skipped with a count of zero.  `ADC`
evaluates the carry flag. -/
def RenewsDeclared (inst : Instruction) (flag : Flag) (state : State) : Prop :=
  match inst.instructionClass with
  | .binaryOperation .adc => flag ≠ .carry
  | .mul | .shiftCl _ => flag = .carry ∨ flag = .overflow
  | .idiv | .syscall => False
  | .repeatableFlag _ => RepeatableFlag.prefixed inst = true ->
      state.get rcx ≠ 0
  | _ => True

end Instruction

section Classes

variable {symbols : Instruction.HostSymbols} {entries : Nat}
variable {inst : Instruction} {code : List Inst} {flag : Flag}
variable {runtime : JumpTable.Runtime} {env : Environment}
variable {state after : State} {visited : List (Inst × State)} {exit : Exit}

/-- A load of a field loads from it in every state. -/
theorem loadsFrom_field_region
    (kind : Load)
    (field : Field)
    (register : Register)
    (state : State) :
    (load kind register contextAddress (field.offset.setWidth 16)).LoadsFrom
      field.region state := by
  have width : 0 < kind.width.bytes := by cases kind <;> decide
  have same : field.region.pointer state 0 = effectiveAddress state
      contextAddress ((field.offset.setWidth 16).setWidth 12) := by
    rw [Region.pointer, effectiveAddress]
    congr 1
    cases field <;> decide
  refine ⟨0, field.bytes_pos, ?_⟩
  rw [same, BitVec.sub_self]
  exact width

/-- `ADC` loads the routine of the carry flag. -/
theorem BinaryOperation.not_renews_of_adc
    (traces : env.Traces (BinaryOperation.adc.generate symbols inst) state
      visited (.ended after)) :
    ¬ Renews visited after .carry := by
  intro renews
  let routine : Inst := lhu .t4 contextAddress
    (Field.carryOperation.offset.setWidth 16)
  have register (dst src : Register) :
      routine ∈ Adc.executeRegister inst dst src :=
    List.mem_append_left _ List.mem_cons_self
  have inCode : routine ∈ BinaryOperation.adc.generate symbols inst := by
    simp only [generate, List.mem_append]
    refine Or.inl (Or.inl (Or.inl (Or.inl (Or.inr ?_))))
    split
    · exact register _ _
    · exact List.mem_cons_of_mem _ (register _ .t3)
  obtain ⟨before, visit⟩ := traces.visits
    (generate_keepsTargets symbols inst .adc).falls inCode
  exact renews.loads _ visit .carryOperation rfl
    (loadsFrom_field_region .lhu .carryOperation .t4 before)

/-- An operation that marks the carry and the overflow flag as not supported and
leaves out the flags of the result. -/
theorem renews_iff_of_slots
    (falls : FallsThrough code)
    (renewing : ∀ slots, slots? flag = some slots -> Renewing flag code)
    (ignores : ∀ field : Field, IgnoresField field code)
    (spares : ∀ field : Field, .carry ≠ field.flag -> .overflow ≠ field.flag ->
      SparesField field code)
    (owns : OwnsLazyFlags runtime env code)
    (traces : (JumpTable.dispatch runtime env).Traces code state visited
      (.ended after)) :
    Renews visited after flag ↔ flag = .carry ∨ flag = .overflow := by
  have renews (slots : Instruction.Slots) (found : slots? flag = some slots) :
      Renews visited after flag :=
    (renewing slots found).renews falls owns (fun field _ => ignores field)
      traces
  constructor
  · intro here
    by_contra other
    obtain ⟨notCarry, notOverflow⟩ := not_or.mp other
    exact not_renews_of_spares (fun field same => spares field
      (fun isCarry => notCarry (same.symm.trans isCarry.symm))
      (fun isOverflow => notOverflow (same.symm.trans isOverflow.symm))) traces
        here
  · rintro (rfl | rfl)
    · exact renews _ rfl
    · exact renews _ rfl

/-- Comparisons of strings renew the flags if they compare anything. -/
theorem RepeatableFlag.renews_iff_counted
    {operation : RepeatableFlag}
    (generated : operation.generate inst = some code)
    (updates : flag ∈ inst.updateFlags)
    (owns : OwnsLazyFlags runtime env code)
    (traces : (JumpTable.dispatch runtime env).Traces code state visited
      (.ended after)) :
    Renews visited after flag ↔
      (prefixed inst = true -> state.get rcx ≠ 0) := by
  obtain ⟨load, rest, computes, found, rfl⟩ := generate_eq_append inst generated
  constructor
  · intro renews isPrefixed counted
    exact generateFlag_not_decides inst operation computes found isPrefixed
      counted traces renews.decides
  · intro compares
    refine (generateFlag_decides inst operation updates owns.calls computes
      found owns.stores traces compares).renews owns (fun field _ => ?_) traces
    exact LoadsBeside.append_iff.mpr ⟨IgnoresField.computes computes,
      generateFlag_ignores inst operation found⟩

/-- A declared flag is renewed but in the cases that are left out. -/
theorem renews_iff
    (generated : inst.generate symbols entries = some code)
    (supported : inst.instructionClass ≠ .unsupported)
    (declared : flag ∈ inst.instructionClass.declaredUpdate)
    (updates : flag ∈ inst.updateFlags)
    (owns : OwnsLazyFlags runtime env code)
    (traces : (JumpTable.dispatch runtime env).Traces code state visited exit)
    (behind : inst.EndsBehind exit after) :
    Renews visited after flag ↔ inst.RenewsDeclared flag state := by
  have renewed
      (ends : exit = .ended after)
      (falls : FallsThrough code)
      (renewing : Renewing flag code)
      (ignores : ∀ field : Field, field.flag = flag ->
        IgnoresField field code) : Renews visited after flag := by
    subst ends
    exact renewing.renews falls owns ignores traces
  have carries (here : flag ∈ Flags.carry) : flag = .carry := by
    revert here
    cases flag <;> decide
  unfold Instruction.generate at generated
  unfold Instruction.EndsBehind at behind
  unfold Instruction.RenewsDeclared
  cases kind : inst.instructionClass <;>
    simp only [kind, Option.some.injEq] at generated supported declared behind ⊢
  case binaryOperation operation =>
    subst generated
    have falls := (operation.generate_keepsTargets symbols inst).falls
    have renewing := operation.generate_renewing symbols inst updates
    have renews (evaluates : operation = .adc -> flag ≠ .carry) :
        Renews visited after flag :=
      renewed behind falls renewing fun field same =>
        BinaryOperation.generate_ignores symbols inst fun isAdc =>
          same ▸ evaluates isAdc
    cases operation
    case adc =>
      refine ⟨fun here isCarry => ?_, fun notCarry => renews fun _ => notCarry⟩
      subst isCarry behind
      exact BinaryOperation.not_renews_of_adc traces here
    all_goals exact iff_of_true (renews (fun isAdc => by cases isAdc)) trivial
  case unaryOperation operation =>
    subst generated
    exact iff_of_true (renewed behind
      (operation.generate_keepsTargets inst).falls
      (UnaryOperation.generate_renewing inst updates declared)
      fun _ _ => UnaryOperation.generate_ignores inst operation) trivial
  case comparable operation =>
    subst generated
    exact iff_of_true (renewed behind
      (operation.generate_keepsTargets inst).falls
      (operation.generate_renewing inst updates)
      fun _ _ => Comparable.generate_ignores inst operation) trivial
  case mul =>
    subst generated behind
    exact renews_iff_of_slots (Mul.generate_keepsTargets symbols inst).falls
      (fun _ found => Mul.generate_renewing symbols inst found updates)
      (fun _ => Mul.generate_ignores symbols inst)
      (fun _ => Mul.generate_spares symbols inst) owns traces
  case idiv =>
    subst generated
    exact iff_of_false (not_renews_of_spares (fun _ _ =>
      Idiv.generate_spares symbols inst) traces) id
  case shiftCl operation =>
    subst generated behind
    exact renews_iff_of_slots
      (ShiftCl.generate_keepsTargets symbols inst operation).falls
      (fun _ found =>
        ShiftCl.generate_renewing symbols inst found updates operation)
      (fun _ => ShiftCl.generate_ignores symbols inst operation)
      (fun _ notCarry notOverflow => ShiftCl.generate_spares symbols inst
        notCarry notOverflow operation) owns traces
  case rotation operation =>
    subst generated
    obtain ⟨slots, found⟩ : ∃ slots, slots? flag = some slots := by
      have either : flag ∈ Flags.carry ||| Flags.overflow := declared
      cases flag with
      | carry | overflow => exact ⟨_, rfl⟩
      | zero | sign | parity => exact absurd either (by decide)
    exact iff_of_true (renewed behind
      (Rotation.generate_keepsTargets symbols inst operation).falls
      (Rotation.generate_renewing symbols inst found updates operation)
      fun _ _ => Rotation.generate_ignores symbols inst operation) trivial
  case bt =>
    subst generated
    obtain rfl := carries declared
    exact iff_of_true (renewed behind (Bt.generate_keepsTargets inst).falls
      (Bt.generate_renewing inst) fun _ _ => Bt.generate_ignores inst) trivial
  case bitTest operation =>
    subst generated
    obtain rfl := carries declared
    exact iff_of_true (renewed behind
      (BitTest.generate_keepsTargets inst operation).falls
      (BitTest.generate_renewing inst operation)
      fun _ _ => BitTest.generate_ignores inst operation) trivial
  case clc | stc =>
    subst generated
    obtain rfl := carries declared
    exact iff_of_true (renewed behind
      (setCarry_keepsTargets inst (by decide) (by decide) _).falls
      (Instruction.setCarry_renewing inst _ (by decide) updates)
      fun _ _ => setCarry_ignores inst _ _) trivial
  case repeatableFlag operation =>
    subst behind
    exact RepeatableFlag.renews_iff_counted generated updates owns traces
  case syscall =>
    subst generated
    exact iff_of_false (not_renews_of_spares (fun _ _ =>
      Syscall.generate_spares inst) traces) id
  case unsupported => exact absurd rfl supported
  all_goals exact absurd declared Flags.not_mem_none

end Classes

/-! ## Comparisons that are skipped -/

/-- An access through another register is a page behind the context at
least. -/
def apartFromContext
    (state : State)
    (base : Register)
    (imm : BitVec 12) : Bool :=
  let distance := effectiveAddress state base imm - state.get contextAddress
  base = contextAddress ∨
    0x1000 ≤ distance.toNat ∧ distance.toNat < 0x8000000000000000

/-- The memory of the guest is apart from the context. -/
def guestMemory : Environment where
  origin := 0
  aligned := zero_aligned
  call _ _ := none
  permits inst state :=
    match inst with
    | .load _ _ rs1 imm => apartFromContext state rs1 imm
    | .store _ rs1 _ imm => apartFromContext state rs1 imm
    | _ => true

theorem bytes_le_of_apartFromContext
    {state : State}
    {base : Register}
    {imm : BitVec 12}
    (apart : apartFromContext state base imm = true)
    (other : base ≠ contextAddress)
    (field : Field)
    {index : Nat}
    (inside : index < field.region.bytes) :
    8 ≤ (field.region.pointer state index -
      effectiveAddress state base imm).toNat := by
  have distant := (of_decide_eq_true apart).resolve_left other
  have low := (Field.offset_lt field).2
  rw [Field.limit] at low
  rw [Region.pointer]
  change index < field.bytes at inside
  change 8 ≤ (state.get contextAddress +
    BitVec.ofNat 64 (field.offset.toNat + index) - _).toNat
  bv_omega

theorem guestMemory_owns (code : List Inst) :
    OwnsLazyFlags (fun _ _ => none) guestMemory code where
  calls _ _ _ _ returns := by cases returns
  stores field kind rs1 rs2 imm state _ other permitted index inside :=
    le_trans (by cases kind <;> decide)
      (bytes_le_of_apartFromContext permitted other field inside)
  loads field kind rd rs1 imm state _ other permitted index inside :=
    le_trans (by cases kind <;> decide)
      (bytes_le_of_apartFromContext permitted other field inside)

/-- `repe cmpsb` -/
def repeCmpsb : Instruction :=
  InstructionClass.construct (.repeatableFlag .cmps)
    { type := .cmps
      operandSize := .byte
      hasRep := true }

/-- A count of comparisons of different bytes, and what the zero flag is
evaluated from. -/
def countedState (count : Word) (zeroValue : BitVec 8) : State :=
  (((({ Instruction.zeroState with
    mem := fun address =>
      if address = 0x8000 then 7
      else if address = 0x9000 then 9
      else if address = 0x1000 + zeroValueOffset.setWidth 64 then zeroValue
      else 0 }.set contextAddress 0x1000).set rsi 0x8000).set rdi 0x9000).set
        rcx count)

/-- The state in which a run of some steps has ended. -/
def endOf? (code : List Inst) (state : State) : Option State :=
  match (JumpTable.dispatch (fun _ _ => none) guestMemory).run code 40 0
      state with
  | .exit (.ended after) => some after
  | _ => none

theorem exits_of_endOf?
    {code : List Inst}
    {state after : State}
    (ends : endOf? code state = some after) :
    (JumpTable.dispatch (fun _ _ => none) guestMemory).Exits code state
      (.ended after) := by
  unfold endOf? at ends
  split at ends
  · rename_i runs
    obtain rfl := Option.some.inj ends
    exact ⟨40, runs⟩
  · cases ends

/-- One comparison of different bytes clears the zero flag, which was set. -/
theorem renews_iff_repeCmpsb :
    ∃ code visited after,
      repeCmpsb.generate Instruction.sampleSymbols 0 = some code ∧
      (JumpTable.dispatch (fun _ _ => none) guestMemory).Traces code
        (countedState 1 0) visited (.ended after) ∧
      EvaluatedFlag (fields (countedState 1 0)) .zero true ∧
      EvaluatedFlag (fields after) .zero false ∧
      Renews visited after .zero := by
  have ends : ((repeCmpsb.generate Instruction.sampleSymbols 0).bind fun code =>
      (endOf? code (countedState 1 0)).map (fields · .zeroValue)) =
        some 0xfe := by
    decide +kernel
  obtain ⟨code, generated, ran⟩ := Option.bind_eq_some_iff.mp ends
  obtain ⟨after, reached, value⟩ := Option.map_eq_some_iff.mp ran
  obtain ⟨visited, traces⟩ := (exits_of_endOf? reached).traces
  refine ⟨code, visited, after, generated, traces, ?_, ?_, ?_⟩
  · rw [EvaluatedFlag]
    decide +kernel
  · rw [EvaluatedFlag, value]
    decide
  · exact (renews_iff generated (by decide) (by decide) (by decide)
      (guestMemory_owns code) traces rfl).mpr fun _ => by decide

/-- With a count of zero the zero flag is what it was before. -/
theorem repeCmpsb_skips :
    (∃ code, repeCmpsb.generate Instruction.sampleSymbols 0 = some code ∧
      OwnsLazyFlags (fun _ _ => none) guestMemory code ∧
      ∀ zeroValue ∈ [0, 1], ∃ visited,
        (JumpTable.dispatch (fun _ _ => none) guestMemory).Traces code
          (countedState 0 zeroValue) visited
            (.ended (countedState 0 zeroValue)) ∧
        ¬ Renews visited (countedState 0 zeroValue) .zero) ∧
      .zero ∈ repeCmpsb.instructionClass.declaredUpdate ∧
      .zero ∈ repeCmpsb.updateFlags ∧
      EvaluatedFlag (fields (countedState 0 0)) .zero true ∧
      EvaluatedFlag (fields (countedState 0 1)) .zero false := by
  refine ⟨?_, by decide, by decide, ?_, ?_⟩
  · have generated : RepeatableFlag.cmps.generate repeCmpsb =
        some (RepeatableFlag.generateLoop repeCmpsb
          (RepeatableFlag.cmps.execute .byte) true) := rfl
    refine ⟨_, generated, guestMemory_owns _, fun zeroValue _ => ?_⟩
    have ends : (JumpTable.dispatch (fun _ _ => none) guestMemory).Exits
        (RepeatableFlag.generateLoop repeCmpsb
          (RepeatableFlag.cmps.execute .byte) true)
        (countedState 0 zeroValue) (.ended (countedState 0 zeroValue)) :=
      ⟨2, rfl⟩
    obtain ⟨visited, traces⟩ := ends.traces
    refine ⟨visited, traces, fun renews => ?_⟩
    exact (RepeatableFlag.renews_iff_counted generated (by decide)
      (guestMemory_owns _) traces).mp renews rfl rfl
  · rw [EvaluatedFlag]
    decide +kernel
  · rw [EvaluatedFlag]
    decide +kernel

end Oxtra

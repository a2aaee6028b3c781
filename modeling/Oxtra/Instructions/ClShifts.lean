import Oxtra.Instructions.ImmediateShifts
import Oxtra.Instructions.Shifts
import Oxtra.Instructions.Subtraction

/-!
# Shifts by `cl`

Operands below 64 bits are shifted as the low 32 bits of the word that they are
loaded as.  The code declares all flags, but stores nothing for zero, sign and
parity, and reports the carry and the overflow flag as unsupported even if the
amount is zero.
-/

namespace Oxtra

open RiscV
open Encoding
open Helper
open FlagInfo
open Instruction
open Fadec (Operand OperandSize)

namespace ShiftCl

/-! ## The shifted word -/

def direction : ShiftCl -> ShiftDirection
  | shlCl => .left
  | shrCl => .right
  | sarCl => .arithmeticRight

/-- The name that is reported for the flags. -/
def name : ShiftCl -> String
  | shlCl => "SHL - Cl"
  | shrCl => "SHR - Cl"
  | sarCl => "SAR - Cl"

/-- The number of bits that are shifted. -/
def wordWidth (size : OperandSize) : Nat := if size = .qword then 64 else 32

/-- What the shift leaves in its register. -/
def shiftedWord
    (operation : ShiftCl)
    (size : OperandSize)
    (word count : Word) : Word :=
  if size = .qword then
    operation.direction.result word (maskedCount size count)
  else
    sext (operation.direction.result (word.setWidth 32)
      (maskedCount size count))

theorem sext_setWidth
    {narrow : Nat}
    (narrower : narrow ≤ 32)
    (value : BitVec 32) :
    (sext value).setWidth narrow = value.setWidth narrow := by
  apply BitVec.eq_of_getLsbD_eq
  intro index inside
  rw [sext, BitVec.getLsbD_setWidth, BitVec.getLsbD_setWidth,
    BitVec.getLsbD_signExtend]
  simp [inside, (by omega : index < 64), (by omega : index < 32)]

/-- The shift of the word is one of the operand if and only if the bits that it
brings in are those that it should bring in. -/
theorem shiftedWord_iff
    (operation : ShiftCl)
    (size : OperandSize)
    (word count : Word) :
    (operation.shiftedWord size word count).setWidth size.bits =
        operation.direction.result (word.setWidth size.bits)
          (maskedCount size count) ↔
      operation.direction.Agrees (word.setWidth (wordWidth size)) size.bits
        (maskedCount size count) (maskedCount size count) := by
  by_cases long : size = .qword
  · subst long
    simp only [shiftedWord, if_true]
    exact iff_of_true (by
      rw [show OperandSize.qword.bits = 64 from rfl, BitVec.setWidth_eq,
        BitVec.setWidth_eq])
      (operation.direction.agrees_whole rfl _)
  · have narrow : size.bits ≤ 32 := by
      cases size with
      | qword => exact absurd rfl long
      | _ => decide
    have width : wordWidth size = 32 := if_neg long
    rw [shiftedWord, if_neg long, width, sext_setWidth narrow,
      ← BitVec.setWidth_setWidth_of_le word narrow]
    exact operation.direction.setWidth_result_iff narrow (Or.inl rfl)

/-! ## The code of the shift -/

section Execute

variable (symbols : HostSymbols) (inst : Instruction)
variable (operation : ShiftCl) {dst : Register}

/-- The shift itself, in front of the flags. -/
theorem execute_eq (src : Register) :
    ∃ computation, operation.execute symbols inst dst src =
        Shift.execute symbols inst computation operation.name ∧
      computation.isComputation = true ∧
      computation.target = some dst ∧
      ∀ pc state, dst ≠ .zero ->
        (computation.apply pc state).get dst =
          operation.shiftedWord inst.destinationSize (state.get src)
            (state.get cl) := by
  by_cases long : inst.destinationSize = .qword
  all_goals
    cases operation <;>
      refine ⟨_, rfl, by split <;> rfl, by split <;> rfl, ?_⟩ <;>
      intro pc state nonzero <;>
      simp [long, State.set_get_self _ _ nonzero, shiftedWord, direction,
        ShiftDirection.result, maskedCount, shiftAmount]

theorem execute_updates (src : Register) :
    UpdatesFields [dst, .t4] (operation.execute symbols inst dst src) := by
  obtain ⟨computation, code, computes, target, -⟩ :=
    @execute_eq symbols inst operation dst src
  rw [code]
  exact Shift.execute_updates symbols inst computes target _

theorem execute_value
    (notTemp : dst ≠ .t4)
    (nonzero : dst ≠ .zero)
    (src : Register)
    (pc : Word)
    (state : State) :
    (applyAll pc state (operation.execute symbols inst dst src)).get dst =
      operation.shiftedWord inst.destinationSize (state.get src)
        (state.get cl) := by
  obtain ⟨computation, code, -, -, value⟩ :=
    @execute_eq symbols inst operation dst src
  rw [code]
  exact Shift.execute_value symbols inst notTemp _ fun pc =>
    value pc state nonzero

theorem execute_fields
    (all : inst.updateFlags = Flags.all)
    (visible : dst ≠ contextAddress)
    (src : Register)
    (pc : Word)
    (state : State) :
    fields (applyAll pc state (operation.execute symbols inst dst src)) =
      unsupportedContents (symbols.text operation.name) (fields state) := by
  obtain ⟨computation, code, computes, target, -⟩ :=
    @execute_eq symbols inst operation dst src
  have kept := fields_computesInto pc state
    (ComputesInto.singleton computes target (List.mem_singleton_self dst))
    (by simpa using visible.symm)
  rw [code, Shift.execute, applyAll_cons,
    inst.unsupported_fields (mem_updateFlags all .carry)
      (mem_updateFlags all .overflow) _ (by decide)]
  exact congrArg _ kept

end Execute

/-! ## Destinations in registers -/

section Register

variable (symbols : HostSymbols) {inst : Instruction}
variable (operation : ShiftCl)
variable {size : OperandSize} {register : Fadec.Register}
variable {type : Fadec.RegisterType}
variable (destination : inst.getOperand 0 = .reg size register type)
variable (valid : (Operand.reg size register type).valid = true)

include destination valid

/-- The shift is between what loads a high byte and what writes the part of the
register. -/
theorem generateRegister_split :
    let dst := mapRegType register type
    let work := destinationRegister (.reg size register type) .t0
    ∃ before src after,
      operation.generateRegister symbols inst size register type =
          before ++ operation.execute symbols inst work src ++ after ∧
        ComputesInto [.t0] before ∧
        ComputesInto [dst, .t1] after ∧
        (∀ pc state,
          (applyAll pc state before).get src = inst.loadedWord state) ∧
        ∀ pc state, (applyAll pc state after).get dst =
          (RegisterAccess.ofType size type).merge (state.get dst)
            (state.get work) := by
  intro dst work
  obtain ⟨eight, -, half, -, -⟩ := shift_amounts
  have guest : isGuest dst = true := isGuest_mapRegType register type
  have nonzero : dst ≠ .zero := ne_of_isGuest guest (by decide)
  have notTemp : dst ≠ .t0 := ne_of_isGuest guest (by decide)
  have notFurther : dst ≠ .t1 := ne_of_isGuest guest (by decide)
  have moves := fun access => @moveToRegister_computesInto dst .t0 .t1 access
    false
  have moved := fun pc state access => @moveToRegister_value dst .t0 .t1 pc
    state nonzero (by decide) notFurther.symm (by decide) access
    (fun _ => notTemp.symm)
  cases type with
  | gph =>
      have byte : size = .byte := by
        simp only [Operand.valid, Bool.and_eq_true, beq_iff_eq] at valid
        exact valid.1.1
      subst byte
      refine ⟨[srli .t0 dst 8], .t0, moveToRegister dst .t0 .hbyte .t1 false,
        rfl, ComputesInto.singleton rfl rfl (by simp), moves _, ?_, ?_⟩
      · intro pc state
        simp only [applyAll_cons, applyAll_nil, apply_srli, loadedWord,
          destination, State.set_get_self _ _ (by decide : Register.t0 ≠ .zero),
          eight]
        rfl
      · exact fun pc state => moved pc state .hbyte
  | gpl =>
      have loaded : ∀ pc state, (applyAll pc state []).get dst =
          inst.loadedWord state := by
        intro pc state
        rw [applyAll_nil, loadedWord, destination]
        rfl
      cases size with
      | qword =>
          exact ⟨[], dst, [], (List.append_nil _).symm, ComputesInto.nil,
            ComputesInto.nil, loaded, fun _ _ => rfl⟩
      | dword =>
          refine ⟨[], dst, [slli dst dst 32, srli dst dst 32], rfl,
            ComputesInto.nil, ComputesInto.cons_iff.mpr
              ⟨Inst.computesInto_of_target rfl rfl (by simp),
                ComputesInto.singleton rfl rfl (by simp)⟩, loaded, ?_⟩
          intro pc state
          simp only [applyAll_cons, applyAll_nil, apply_slli, apply_srli,
            State.set_get_self _ _ nonzero, half]
          exact merge_dword _ _
      | word =>
          exact ⟨[], dst, moveToRegister dst .t0 .word .t1 false, rfl,
            ComputesInto.nil, moves _, loaded,
            fun pc state => moved pc state .word⟩
      | byte =>
          exact ⟨[], dst, moveToRegister dst .t0 .lbyte .t1 false, rfl,
            ComputesInto.nil, moves _, loaded,
            fun pc state => moved pc state .lbyte⟩

theorem generateRegister_updates :
    UpdatesFields [mapRegType register type, .t0, .t1, .t4]
      (operation.generateRegister symbols inst size register type) := by
  obtain ⟨before, src, after, code, loads, writes, -, -⟩ :=
    generateRegister_split symbols operation destination valid
  have executes := @execute_updates symbols inst operation
    (destinationRegister (.reg size register type) .t0) src
  rw [code]
  refine Updates.append (Updates.append ?_ ?_) ?_
  · exact (UpdatesFields.computeInto loads).mono (by simp)
  · refine executes.mono ?_
    intro temp member
    simp only [destinationRegister, List.mem_cons, List.not_mem_nil,
      or_false] at member ⊢
    split at member <;> tauto
  · refine (UpdatesFields.computeInto writes).mono ?_
    intro temp member
    simp only [List.mem_cons, List.not_mem_nil, or_false] at member ⊢
    tauto

theorem generateRegister_registers (pc : Word) (state : State) :
    ∀ reg, (applyAll pc state (operation.generateRegister symbols inst size
        register type)).get (mapReg reg) =
      writtenRegisters (inst.getOperand 0)
        (operation.shiftedWord inst.destinationSize (inst.loadedWord state)
          (state.get cl)) state reg := by
  have guest : isGuest (mapRegType register type) = true :=
    isGuest_mapRegType register type
  have updates := generateRegister_updates symbols operation destination valid
  have others : ∀ reg, mapReg reg ≠ mapRegType register type ->
      (applyAll pc state (operation.generateRegister symbols inst size
        register type)).get (mapReg reg) = state.get (mapReg reg) :=
    fun reg different => updates.get _ _ (by simp [different])
  obtain ⟨before, src, after, code, loads, -, loaded, written⟩ :=
    generateRegister_split symbols operation destination valid
  let work := destinationRegister (.reg size register type) .t0
  have workNotTemp : work ≠ .t4 := by
    simp only [work, destinationRegister]
    split
    · exact ne_of_isGuest guest (by decide)
    · decide
  have workNonzero : work ≠ .zero := by
    simp only [work, destinationRegister]
    split
    · exact ne_of_isGuest guest (by decide)
    · decide
  rw [destination, writtenRegisters_iff others, code, applyAll_append,
    written, applyAll_append,
    execute_value symbols inst operation workNotTemp workNonzero, loaded,
    loads.get _ _ (by decide : cl ∉ [.t0])]
  by_cases long : 4 ≤ size.bytes
  · have low := low_of_valid valid long
    subst low
    cases size with
    | byte | word => exact absurd long (by decide)
    | dword | qword => rfl
  · have executes := @execute_updates symbols inst operation work src
    have temporary : destinationRegister (.reg size register type) .t0 =
        .t0 := if_neg long
    have notLoaded : mapRegType register type ≠ .t0 :=
      ne_of_isGuest guest (by decide)
    have notTemp : mapRegType register type ≠ .t4 :=
      ne_of_isGuest guest (by decide)
    rw [show work = .t0 from temporary] at executes
    rw [temporary, executes.get _ _ (by simp [notLoaded, notTemp]),
      loads.get _ _ (by simp [notLoaded])]

theorem generateRegister_fields
    (all : inst.updateFlags = Flags.all)
    (pc : Word)
    (state : State) :
    fields (applyAll pc state (operation.generateRegister symbols inst size
        register type)) =
      unsupportedContents (symbols.text operation.name) (fields state) := by
  have guest : isGuest (mapRegType register type) = true :=
    isGuest_mapRegType register type
  have visible := ne_of_isGuest guest
    (by decide : isGuest contextAddress = false)
  obtain ⟨before, src, after, code, loads, writes, -, -⟩ :=
    generateRegister_split symbols operation destination valid
  have workVisible : destinationRegister (.reg size register type) .t0 ≠
      contextAddress := by
    rw [destinationRegister]
    split
    · exact visible
    · decide
  rw [code, applyAll_append,
    fields_computesInto _ _ writes (by
      simpa using ⟨visible.symm, (by decide : contextAddress ≠ .t1)⟩),
    applyAll_append, execute_fields symbols inst operation all workVisible,
    fields_computesInto _ _ loads (by decide)]

end Register

end ShiftCl

/-! ## Flags -/

/-- The routines for flags that are not supported report a fault and do not
return. -/
structure FaultsOnUnsupported (runtime : JumpTable.Runtime) : Prop where
  carry : ∀ called, runtime .unsupportedCarry called = none
  overflow : ∀ called, runtime .unsupportedOverflow called = none

/-- Behind a shift by an amount that is not zero, zero, sign and parity are
those of the result.  Behind a shift by zero every flag that had a value has
it. -/
structure ShiftFlags
    {bits : Nat}
    (runtime : JumpTable.Runtime)
    (result : BitVec bits)
    (count : Nat)
    (state final : State) : Prop where
  changed : count ≠ 0 ->
    ∀ later : Environment, later.PermitsEverything ->
      ∀ flag, flag ≠ .carry -> flag ≠ .overflow ->
        Evaluates (JumpTable.dispatch runtime later) (evaluate flag) final
          (resultFlags result false false flag)
  kept : count = 0 ->
    ∀ flag value, EvaluatedFlag (fields state) flag value ->
      ∀ later : Environment, later.PermitsEverything ->
        Evaluates (JumpTable.dispatch runtime later) (evaluate flag) final
          value

/-- The lazy information in front of a shift is right behind it: zero, sign
and parity are those of the result, or the amount is zero and the carry and the
overflow flag have no value. -/
structure StaleFlags
    {bits : Nat}
    (result : BitVec bits)
    (count : Nat)
    (state : State) : Prop where
  changed : count ≠ 0 -> ∀ flag, flag ≠ .carry -> flag ≠ .overflow ->
    EvaluatedFlag (fields state) flag (resultFlags result false false flag)
  kept : count = 0 -> ∀ value,
    ¬ EvaluatedFlag (fields state) .carry value ∧
      ¬ EvaluatedFlag (fields state) .overflow value

section Flags

variable {runtime : JumpTable.Runtime} {env : Environment}
variable {state final : State} {name : BitVec 64}

/-- The fields for zero, sign and parity are kept. -/
theorem evaluatedFlag_unsupported
    {flag : Flag}
    (notCarry : flag ≠ .carry)
    (notOverflow : flag ≠ .overflow)
    (contents : Field -> Word)
    (value : Bool) :
    EvaluatedFlag (unsupportedContents name contents) flag value ↔
      EvaluatedFlag contents flag value := by
  cases flag with
  | carry => exact absurd rfl notCarry
  | overflow => exact absurd rfl notOverflow
  | _ => rfl

variable (permits : env.PermitsEverything) (aligned : TableAligned final)

include permits aligned

/-- Zero, sign and parity always have a value, which is evaluated. -/
theorem evaluates_iff_evaluatedFlag
    {flag : Flag}
    (notCarry : flag ≠ .carry)
    (notOverflow : flag ≠ .overflow)
    (value : Bool) :
    Evaluates (JumpTable.dispatch runtime env) (evaluate flag) final value ↔
      EvaluatedFlag (fields final) flag value := by
  refine ⟨fun evaluates => ?_, evaluates_of_evaluatedFlag permits aligned⟩
  obtain ⟨actual, evaluated⟩ :
      ∃ actual, EvaluatedFlag (fields final) flag actual := by
    cases flag with
    | carry => exact absurd rfl notCarry
    | overflow => exact absurd rfl notOverflow
    | _ => exact ⟨_, rfl⟩
  have same := (evaluates_of_evaluatedFlag permits aligned evaluated).unique
    evaluates
  exact same ▸ evaluated

/-- The carry and the overflow flag are lost. -/
theorem not_evaluates_unsupported
    (faults : FaultsOnUnsupported runtime)
    {contents : Field -> Word}
    (unsupported : fields final = unsupportedContents name contents)
    (value : Bool) :
    ¬ Evaluates (JumpTable.dispatch runtime env) evaluateCarry final value ∧
      ¬ Evaluates (JumpTable.dispatch runtime env) evaluateOverflow final
        value := by
  constructor
  · refine not_evaluates_of_faults permits aligned
      (rfl : JumpTable.Entry.unsupportedCarry.destination = _) faults.carry ?_
      value
    exact congrFun unsupported .carryOperation
  · refine not_evaluates_of_faults permits aligned
      (rfl : JumpTable.Entry.unsupportedOverflow.destination = _)
      faults.overflow ?_ value
    exact congrFun unsupported .overflowOperation

theorem shiftFlags_iff
    (faults : FaultsOnUnsupported runtime)
    (unsupported : fields final = unsupportedContents name (fields state))
    {bits : Nat}
    (result : BitVec bits)
    (count : Nat) :
    ShiftFlags runtime result count state final ↔
      StaleFlags result count state := by
  have lost := not_evaluates_unsupported permits aligned faults unsupported
  constructor
  · intro flags
    constructor
    · intro nonzero flag notCarry notOverflow
      have evaluates := flags.changed nonzero env permits flag notCarry
        notOverflow
      rwa [evaluates_iff_evaluatedFlag permits aligned notCarry notOverflow,
        unsupported, evaluatedFlag_unsupported notCarry notOverflow]
        at evaluates
    · intro zero value
      exact ⟨fun evaluated => (lost value).1
          (flags.kept zero .carry value evaluated env permits),
        fun evaluated => (lost value).2
          (flags.kept zero .overflow value evaluated env permits)⟩
  · intro stale
    constructor
    · intro nonzero later permitsLater flag notCarry notOverflow
      rw [evaluates_iff_evaluatedFlag permitsLater aligned notCarry
        notOverflow, unsupported,
        evaluatedFlag_unsupported notCarry notOverflow]
      exact stale.changed nonzero flag notCarry notOverflow
    · intro zero flag value evaluated later permitsLater
      by_cases carry : flag = .carry
      · exact absurd (carry ▸ evaluated) (stale.kept zero value).1
      · by_cases overflow : flag = .overflow
        · exact absurd (overflow ▸ evaluated) (stale.kept zero value).2
        · rw [evaluates_iff_evaluatedFlag permitsLater aligned carry overflow,
            unsupported, evaluatedFlag_unsupported carry overflow]
          exact evaluated

end Flags

/-! ## Shifts by `cl` -/

namespace Instruction

variable (inst : Instruction)

/-- An operand in the memory is no part of the lazy information. -/
def DestinationBeside (state : State) : Prop :=
  match inst.getOperand 0 with
  | .mem size base => ∀ index < size.bytes, BesideFields state
      (inst.guestAddress (.mem size base) state + BitVec.ofNat 64 index)
  | _ => True

/-- The destination is in a register or, without an override, in the memory of
the guest. -/
structure ModifiedDestination (state : State) : Prop where
  rm : (inst.getOperand 0).isRm = true
  valid : (inst.getOperand 0).valid = true
  noOverride : (inst.getOperand 0).isMem = true -> inst.NoOverride
  beside : inst.DestinationBeside state

/-- The amount of a shift by `cl` on x86. -/
def clCount (state : State) : Nat :=
  maskedCount inst.destinationSize (state.get cl)

end Instruction

namespace ShiftCl

/-- A shift by `cl` does what it should: the address of an operand in the
memory fits, the bits that are brought in are right, and so is the lazy
information that is there before. -/
structure Holds
    (operation : ShiftCl)
    (inst : Instruction)
    (state : State) : Prop where
  address : (inst.getOperand 0).isMem = true ->
    inst.AddressFits (inst.getOperand 0) state
  bits : operation.direction.Agrees
    ((inst.loadedWord state).setWidth (wordWidth inst.destinationSize))
    inst.destinationSize.bits (inst.clCount state) (inst.clCount state)
  flags : StaleFlags
    (operation.direction.result (inst.firstBits state) (inst.clCount state))
    (inst.clCount state) state

section Generate

variable (symbols : HostSymbols) {inst : Instruction}
variable (operation : ShiftCl) {state : State}
variable (destination : inst.ModifiedDestination state)
variable (all : inst.updateFlags = Flags.all)
variable {runtime : JumpTable.Runtime} (faults : FaultsOnUnsupported runtime)
variable {env : Environment} (permits : env.PermitsEverything)
variable (aligned : TableAligned state)

include destination all faults permits aligned

theorem generate_register_iff
    (isReg : (inst.getOperand 0).isReg = true) :
    let result := operation.direction.result (inst.firstBits state)
      (inst.clCount state)
    inst.ModifiedBy (JumpTable.dispatch runtime env)
        (operation.generate symbols inst) (result.setWidth 64) state
        (ShiftFlags runtime result (inst.clCount state) state) ↔
      operation.Holds inst state := by
  intro result
  have valid := destination.valid
  have form : inst.RegisterDestination := ⟨isReg, valid⟩
  have dispatched : (JumpTable.dispatch runtime env).PermitsEverything :=
    permits
  obtain ⟨size, register, type, first⟩ := form.destination
  rw [first] at valid
  have code : operation.generate symbols inst =
      operation.generateRegister symbols inst size register type := by
    simp only [generate, first]
  have guest := isGuest_mapRegType register type
  have updates := generateRegister_updates symbols operation first valid
  have kept : ∀ temp, isGuest temp = false -> temp ∉ [.t0, .t1, .t4] ->
      temp ∉ [mapRegType register type, .t0, .t1, .t4] := by
    intro temp notGuest outside member
    rcases List.mem_cons.mp member with rfl | further
    · rw [guest] at notGuest
      cases notGuest
    · exact outside further
  have registers := generateRegister_registers symbols operation first valid
    (JumpTable.dispatch runtime env).origin state
  have unsupported := generateRegister_fields symbols operation first valid
    all (JumpTable.dispatch runtime env).origin state
  have finalAligned : TableAligned
      (applyAll (JumpTable.dispatch runtime env).origin state
        (operation.generateRegister symbols inst size register type)) := by
    rw [TableAligned, updates.get _ _ (kept _ (by decide) (by decide))]
    exact aligned
  rw [code, inst.modifiedBy_iff_of_straight dispatched updates.straight,
    modifies_register_iff isReg destination.valid updates
      (kept _ (by decide) (by decide)) registers,
    shiftFlags_iff permits finalAligned faults unsupported]
  have bits := operation.shiftedWord_iff inst.destinationSize
    (inst.loadedWord state) (state.get cl)
  rw [← firstBits_loadedWord form] at bits
  have whole : (result.setWidth 64).setWidth (inst.getOperand 0).size.bits =
      result := setWidth_bits inst.destinationSize result
  rw [whole]
  constructor
  · rintro ⟨same, stale⟩
    refine ⟨fun isMem => ?_, bits.mp same, stale⟩
    rw [first] at isMem
    cases isMem
  · intro holds
    exact ⟨bits.mpr holds.bits, holds.flags⟩

theorem generate_memory_iff
    {size : OperandSize}
    {base : Option Fadec.Register}
    (isMem : inst.getOperand 0 = .mem size base) :
    let result := operation.direction.result (inst.firstBits state)
      (inst.clCount state)
    inst.ModifiedBy (JumpTable.dispatch runtime env)
        (operation.generate symbols inst) (result.setWidth 64) state
        (ShiftFlags runtime result (inst.clCount state) state) ↔
      operation.Holds inst state := by
  intro result
  let word := fun loaded =>
    operation.shiftedWord inst.destinationSize loaded (state.get cl)
  have dispatched : (JumpTable.dispatch runtime env).PermitsEverything :=
    permits
  have noOverride := destination.noOverride (by rw [isMem]; rfl)
  have suitable : Suitable .t1 .t1 .t2 .t0 [.t0, .t4] := by decide
  have updates := @execute_updates symbols inst operation .t0 .t0
  have code : operation.generate symbols inst =
      modifyMemory inst (inst.getOperand 0) .t1 .t1 .t2 .t0
        (operation.execute symbols inst .t0 .t0) := by
    simp only [generate, modifyMemory, isMem]
  have computes : ∀ pc before,
      (∀ reg, before.get (mapReg reg) = state.get (mapReg reg)) ->
        ((applyAll pc before (operation.execute symbols inst .t0 .t0)).get
            .t0).setWidth size.bits =
          (word (before.get .t0)).setWidth size.bits := by
    intro pc before same
    have count : before.get cl = state.get cl := same 1
    rw [execute_value symbols inst operation (by decide) (by decide), count]
  have changes := fun pc before => execute_fields symbols inst operation all
    (by decide : Register.t0 ≠ contextAddress) .t0 pc before
  have finalAligned : TableAligned
      (applyAll (JumpTable.dispatch runtime env).origin state
        (operation.generate symbols inst)) := by
    rw [TableAligned, code,
      modifyMemory_get noOverride suitable updates (by decide)]
    exact aligned
  have bits := operation.shiftedWord_iff inst.destinationSize
    (inst.loadedWord state) (state.get cl)
  have loaded : state.mem.load
      (inst.guestAddress (inst.getOperand 0) state) size.bytes =
        inst.loadedWord state := by
    rw [loadedWord, isMem]
  have first : (inst.loadedWord state).setWidth inst.destinationSize.bits =
      inst.firstBits state := (firstBits_memory isMem state).symm
  rw [first] at bits
  have whole : (result.setWidth 64).setWidth inst.destinationSize.bits =
      result := setWidth_bits inst.destinationSize result
  obtain rfl : inst.destinationSize = size := by
    rw [destinationSize, isMem]
    rfl
  have modifies := @modifies_memory_iff inst noOverride .t1 .t1 .t2 .t0 _
    suitable _ updates (JumpTable.dispatch runtime env).origin state _ _ isMem
    (fun loaded => (word loaded).setWidth _) computes (result.setWidth 64)
  have computed : (word (inst.loadedWord state)).setWidth
      inst.destinationSize.bits = result ↔ _ := bits
  rw [loaded, whole, computed, ← code] at modifies
  dsimp only at modifies
  rw [inst.modifiedBy_iff_of_straight dispatched
    (by rw [code]; exact modifyMemory_straight updates), modifies]
  have beside : inst.AddressFits (inst.getOperand 0) state ->
      fields (applyAll (JumpTable.dispatch runtime env).origin state
          (operation.generate symbols inst)) =
        unsupportedContents (symbols.text operation.name) (fields state) := by
    intro fits
    have apart := destination.beside
    rw [code]
    refine modifyMemory_fields noOverride suitable updates changes ?_
    rw [(inst.accessedAddress_eq_iff _ state).mpr fits,
      ← noOverride.guestAddress]
    rw [DestinationBeside, isMem] at apart
    rw [isMem]
    exact apart
  constructor
  · rintro ⟨⟨fits, agrees⟩, flags⟩
    exact ⟨fun _ => fits, agrees,
      (shiftFlags_iff permits finalAligned faults (beside fits) _ _).mp flags⟩
  · intro holds
    have fits := holds.address (by rw [isMem]; rfl)
    exact ⟨⟨fits, holds.bits⟩,
      (shiftFlags_iff permits finalAligned faults (beside fits) _ _).mpr
        holds.flags⟩

/-- A shift by `cl` leaves the result of x86 in its destination, changes
nothing else, and sets the flags as x86 does if and only if the bits that it
brings in and the lazy information in front of it are right. -/
theorem generate_modifiedBy_iff :
    let result := operation.direction.result (inst.firstBits state)
      (inst.clCount state)
    inst.ModifiedBy (JumpTable.dispatch runtime env)
        (operation.generate symbols inst) (result.setWidth 64) state
        (ShiftFlags runtime result (inst.clCount state) state) ↔
      operation.Holds inst state := by
  have rm := destination.rm
  cases first : inst.getOperand 0 with
  | reg size register type =>
      exact generate_register_iff symbols operation destination all faults
        permits aligned (by rw [first]; rfl)
  | mem size base =>
      exact generate_memory_iff symbols operation destination all faults
        permits aligned first
  | imm size =>
      rw [first] at rm
      cases rm
  | none =>
      rw [first] at rm
      cases rm

end Generate

/-- `shr ax, cl` -/
def shrAx : Instruction :=
  (InstructionClass.shiftCl .shrCl).construct
    { type := .shrCl, operands := [.reg .word 0 .gpl] }

theorem shrAx_modifiedDestination (state : State) :
    shrAx.ModifiedDestination state where
  rm := rfl
  valid := rfl
  noOverride _ := by exact ⟨by decide, by decide⟩
  beside := by
    rw [DestinationBeside]
    trivial

/-- The first bit above the operand is clear and the next one is set.  The
amount is one, and the lazy information, like all of the memory, is that of a
positive result with an odd parity. -/
def eighteenthBitState : State :=
  ({ zeroState with mem := fun _ => 1 }.set (mapReg 0) 0x20106).set (mapReg 1) 1

theorem shrAx_holds : shrCl.Holds shrAx eighteenthBitState where
  address isMem := absurd isMem (by decide)
  bits := (shrCl.shiftedWord_iff shrAx.destinationSize
    (shrAx.loadedWord eighteenthBitState) (eighteenthBitState.get cl)).mp
      (by decide +kernel)
  flags := {
    changed := by
      rintro - (_ | _ | _ | _ | _) notCarry notOverflow
      case carry => exact absurd rfl notCarry
      case overflow => exact absurd rfl notOverflow
      all_goals
        rw [EvaluatedFlag]
        decide +kernel
    kept := fun none => absurd none (by decide +kernel) }

theorem generate_modifiedBy_iff_shrAx :
    let result := ShiftDirection.right.result
      (shrAx.firstBits eighteenthBitState) (shrAx.clCount eighteenthBitState)
    shrAx.ModifiedBy (JumpTable.dispatch (fun _ _ => none) Stub.environment)
      (shrCl.generate sampleSymbols shrAx) (result.setWidth 64)
      eighteenthBitState
      (ShiftFlags (fun _ _ => none) result
        (shrAx.clCount eighteenthBitState) eighteenthBitState) :=
  (generate_modifiedBy_iff sampleSymbols .shrCl (shrAx_modifiedDestination _)
    rfl ⟨fun _ => rfl, fun _ => rfl⟩ (fun _ _ => rfl) (by decide)).mpr
      shrAx_holds

/-- A bit above the operand is set, and the amount is one. -/
def seventeenthBitState : State :=
  (zeroState.set (mapReg 0) 0x10000).set (mapReg 1) 1

/-- The bit is shifted into the operand. -/
theorem shrAx_bringsBit :
    let result := ShiftDirection.right.result
      (shrAx.firstBits seventeenthBitState) (shrAx.clCount seventeenthBitState)
    ¬ shrAx.ModifiedBy (JumpTable.dispatch (fun _ _ => none) Stub.environment)
      (shrCl.generate sampleSymbols shrAx) (result.setWidth 64)
      seventeenthBitState
      (ShiftFlags (fun _ _ => none) result (shrAx.clCount seventeenthBitState)
        seventeenthBitState) := by
  intro result modified
  have holds := (generate_register_iff sampleSymbols .shrCl
    (shrAx_modifiedDestination _) rfl ⟨fun _ => rfl, fun _ => rfl⟩
    (fun _ _ => rfl) (by decide) rfl).mp modified
  have shifted := (shrCl.shiftedWord_iff shrAx.destinationSize
    (shrAx.loadedWord seventeenthBitState)
    (seventeenthBitState.get cl)).mpr holds.bits
  revert shifted
  decide +kernel

end ShiftCl

end Oxtra

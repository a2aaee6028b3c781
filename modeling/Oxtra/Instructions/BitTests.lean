import Oxtra.Instructions.BitTest
import Oxtra.Instructions.Subtraction

/-!
# Bits of registers

The bit tests on registers select the right bit when the offset is an
immediate.  An offset in a register is not used: the mask stands for the first
bit, and `BT` tests whatever was in its temporary.
-/

namespace Oxtra

open RiscV
open Encoding
open Helper
open FlagInfo
open Instruction
open Fadec (Operand OperandSize)

/-! ## Results -/

namespace BitTest

section Results

variable {width : Nat} (value : BitVec width) (index : Nat)

/-- The result of an operation on a bit on x86. -/
def result : BitTest -> BitVec width
  | btc => value ^^^ BitVec.twoPow width index
  | btr => value &&& ~~~BitVec.twoPow width index
  | bts => value ||| BitVec.twoPow width index

/-- What an operation makes of the selected bit. -/
def changedBit (bit : Bool) : BitTest -> Bool
  | btc => !bit
  | btr => false
  | bts => true

variable {value index}

theorem result_getLsbD
    (operation : BitTest)
    (inside : index < width)
    (other : Nat) :
    (operation.result value index).getLsbD other =
      if other = index then
        operation.changedBit (value.getLsbD index)
      else
        value.getLsbD other := by
  by_cases same : other = index
  · subst same
    cases operation <;> simp [result, changedBit, inside]
  · have different : ¬ index = other := fun equal => same equal.symm
    cases operation
    all_goals
      simp [result, same, different]
      try exact fun set => BitVec.lt_of_getLsbD set

/-- An operation on the first bit does what it should do to the selected one
if this is the first, or if both of them are what the operation makes of a bit:
clear for `BTR` and set for `BTS`. -/
def Harmless (operation : BitTest) (value : BitVec width) (index : Nat) :
    Prop :=
  index = 0 ∨ value.getLsbD 0 = value.getLsbD index ∧
    operation.changedBit (value.getLsbD 0) = value.getLsbD 0

/-- The results and the tested bits are the same. -/
theorem result_zero_eq_iff
    (operation : BitTest)
    (inside : index < width) :
    operation.result value 0 = operation.result value index ∧
        value.getLsbD 0 = value.getLsbD index ↔
      operation.Harmless value index := by
  have positive : 0 < width := by omega
  by_cases first : index = 0
  · simp [Harmless, first]
  · have apart : ¬ 0 = index := fun equal => first equal.symm
    simp only [Harmless, first, false_or]
    constructor
    · rintro ⟨results, bits⟩
      refine ⟨bits, ?_⟩
      have changed := congrArg (BitVec.getLsbD · 0) results
      simpa only [result_getLsbD operation positive,
        result_getLsbD operation inside, if_true, if_neg apart] using changed
    · rintro ⟨bits, fixed⟩
      refine ⟨?_, bits⟩
      apply BitVec.eq_of_getLsbD_eq
      intro other _
      rw [result_getLsbD operation positive, result_getLsbD operation inside]
      by_cases atFirst : other = 0
      · subst atFirst
        rw [if_pos rfl, if_neg apart, fixed]
      · by_cases atIndex : other = index
        · subst atIndex
          rw [if_neg atFirst, if_pos rfl, ← bits, fixed]
        · rw [if_neg atFirst, if_neg atIndex]

end Results

/-! ## Results in registers -/

theorem result_setWidth
    (operation : BitTest)
    {width narrow index : Nat}
    (value : BitVec width)
    (inside : index < narrow)
    (narrower : narrow ≤ width) :
    (operation.result value index).setWidth narrow =
      operation.result (value.setWidth narrow) index := by
  apply BitVec.eq_of_getLsbD_eq
  intro other low
  rw [BitVec.getLsbD_setWidth, result_getLsbD operation (by omega),
    result_getLsbD operation inside]
  simp [low, inside]

/-- Only one bit is changed. -/
theorem result_getLsbD_of_ne
    (operation : BitTest)
    {width index : Nat}
    (value : BitVec width)
    (inside : index < width)
    {other : Nat}
    (different : other ≠ index) :
    (operation.result value index).getLsbD other = value.getLsbD other := by
  rw [result_getLsbD operation inside, if_neg different]

/-- The bits above the operand are written as they should be, except that
those above 32 bits are kept. -/
theorem merge_result_iff
    (operation : BitTest)
    {size : OperandSize}
    (notByte : size ≠ .byte)
    (value : Word)
    {index : Nat}
    (inside : index < size.bits) :
    (RegisterAccess.ofSize size).merge value (operation.result value index) =
        operation.result value index ↔
      (size = .dword -> RegisterAccess.dword.part value = value) := by
  have kept : ∀ other, size.bits ≤ other ->
      (operation.result value index).getLsbD other = value.getLsbD other :=
    fun other above => operation.result_getLsbD_of_ne value
      (inside.trans_le size.bits_le) (by omega)
  cases size with
  | byte => exact absurd rfl notByte
  | word =>
      simp only [reduceCtorEq, false_imp_iff, iff_true]
      apply BitVec.eq_of_getLsbD_eq
      intro other _
      have above := kept other
      simp only [OperandSize.bits, OperandSize.bytes] at above
      simp only [RegisterAccess.ofSize, RegisterAccess.merge,
        BitVec.getLsbD_append, BitVec.getLsbD_extractLsb',
        BitVec.getLsbD_setWidth]
      grind
  | dword =>
      simp only [OperandSize.bits, OperandSize.bytes] at kept
      simp only [RegisterAccess.ofSize, RegisterAccess.merge,
        RegisterAccess.part, true_imp_iff]
      have clear : ∀ word : Word, (word.setWidth 32).setWidth 64 = word ↔
          ∀ other, 32 ≤ other -> word.getLsbD other = false := by
        intro word
        constructor
        · intro same other above
          rw [← same]
          simp; omega
        · intro zeros
          apply BitVec.eq_of_getLsbD_eq
          intro other _
          have zero := zeros other
          simp only [BitVec.getLsbD_setWidth]
          grind
      rw [clear, clear]
      constructor
      · intro zeros other above
        rw [← kept other above, zeros other above]
      · intro zeros other above
        rw [kept other above, zeros other above]
  | qword => simp [RegisterAccess.ofSize, RegisterAccess.merge]

/-- The whole register is as it should be if and only if the bits of the
operand are. -/
theorem result_eq_merge_iff
    (operation : BitTest)
    {size : OperandSize}
    (notByte : size ≠ .byte)
    (value : Word)
    {index selected : Nat}
    (inside : index < size.bits) :
    operation.result value index = (RegisterAccess.ofSize size).merge value
        ((operation.result (value.setWidth size.bits) selected).setWidth
          64) ↔
      (size = .dword -> RegisterAccess.dword.part value = value) ∧
        operation.result (value.setWidth size.bits) index =
          operation.result (value.setWidth size.bits) selected := by
  have bits : (RegisterAccess.ofSize size).bits = size.bits := by
    cases size <;> rfl
  have low := operation.result_setWidth value inside size.bits_le
  have widened : ∀ narrow : BitVec size.bits,
      (narrow.setWidth 64).setWidth size.bits = narrow := fun narrow =>
    (BitVec.setWidth_setWidth_of_le _ size.bits_le).trans
      (BitVec.setWidth_eq _)
  have written : ∀ narrow : BitVec size.bits,
      ((RegisterAccess.ofSize size).merge value
        (narrow.setWidth 64)).setWidth size.bits = narrow := by
    intro narrow
    have merged := RegisterAccess.merge_setWidth
      (RegisterAccess.ofSize_ne_hbyte size) value (narrow.setWidth 64)
    rw [bits, widened] at merged
    exact merged
  have own : (RegisterAccess.ofSize size).merge value
      (operation.result value index) =
        (RegisterAccess.ofSize size).merge value
          ((operation.result (value.setWidth size.bits) index).setWidth
            64) := by
    apply RegisterAccess.merge_congr
    rw [bits, widened, low]
  constructor
  · intro same
    have equal : operation.result (value.setWidth size.bits) index =
        operation.result (value.setWidth size.bits) selected := by
      rw [← low, same, written]
    refine ⟨(operation.merge_result_iff notByte value inside).mp ?_, equal⟩
    rw [own, equal, ← same]
  · rintro ⟨upper, equal⟩
    rw [← equal, ← own]
    exact ((operation.merge_result_iff notByte value inside).mpr upper).symm

/-! ## The mask -/

/-- A bit as an immediate. -/
theorem addi_mask : ∀ amount < 11,
    signedImm (BitVec.ofNat 16 (2 ^ amount)) = BitVec.twoPow 64 amount := by
  decide

/-- A bit as an upper immediate, which is not the sign. -/
theorem lui_mask : ∀ amount < 31, 11 < amount ->
    ((BitVec.ofNat 32 (2 ^ (amount - 12))).setWidth 20 ++ 0#12).signExtend 64 =
      BitVec.twoPow 64 amount := by
  decide

theorem slli_mask
    {amount : Nat}
    (inside : amount < 64) :
    signedImm (1 : BitVec 16) <<<
        ((BitVec.ofNat 8 amount).setWidth 6).toNat =
      BitVec.twoPow 64 amount := by
  have one : signedImm (1 : BitVec 16) = 1#64 := by decide
  have shift : ((BitVec.ofNat 8 amount).setWidth 6).toNat = amount := by
    simp only [BitVec.toNat_setWidth, BitVec.toNat_ofNat]
    omega
  rw [one, shift, ← BitVec.twoPow_eq]

section LoadMask

variable (inst : Instruction)

/-- The bit that the mask stands for. -/
def testedIndex : Nat :=
  if (inst.getOperand 1).isImm then immediateBitOffset inst else 0

theorem testedIndex_lt : testedIndex inst < inst.destinationSize.bits := by
  have positive := inst.destinationSize.bits_pos
  unfold testedIndex immediateBitOffset
  split
  · exact Nat.mod_lt _ positive
  · exact positive

theorem loadMask_computesInto : ComputesInto [.t2] (loadMask inst) := by
  unfold loadMask
  simp only []
  repeat' split
  all_goals
    repeat' first
      | exact ComputesInto.nil
      | refine ComputesInto.cons_iff.mpr
          ⟨Inst.computesInto_of_target rfl rfl (by simp [maskReg]), ?_⟩

theorem loadMask_value (pc : Word) (state : State) :
    (applyAll pc state (loadMask inst)).get .t2 =
      BitVec.twoPow 64 (testedIndex inst) := by
  have nonzero : Register.t2 ≠ .zero := by decide
  have bound := testedIndex_lt inst
  have wide := inst.destinationSize.bits_le
  unfold loadMask testedIndex at *
  by_cases isImm : (inst.getOperand 1).isImm = true
  · simp only [if_pos isImm, maskReg] at bound ⊢
    by_cases low : immediateBitOffset inst < 11
    · simp only [if_pos low, applyAll_cons, applyAll_nil, apply_addi,
        State.set_get_self _ _ nonzero, State.get_zero, zero_add,
        addi_mask _ low]
    · by_cases upper : 11 < immediateBitOffset inst ∧
          immediateBitOffset inst < 31
      · simp only [if_neg low, if_pos upper, applyAll_cons, applyAll_nil,
          apply_lui, State.set_get_self _ _ nonzero,
          lui_mask _ upper.2 upper.1]
      · simp only [if_neg low, if_neg upper, applyAll_cons, applyAll_nil,
          apply_addi, apply_slli, State.set_get_self _ _ nonzero,
          State.get_zero, zero_add,
          slli_mask (by omega : immediateBitOffset inst < 64)]
  · have one : signedImm (1 : BitVec 16) = BitVec.twoPow 64 0 := by decide
    simp only [if_neg isImm, maskReg, applyAll_cons, applyAll_nil, apply_addi,
      State.set_get_self _ _ nonzero, State.get_zero, zero_add, one]

end LoadMask

/-- A masked word is not zero if and only if it has the bit. -/
theorem masked_bit
    (value : Word)
    {index : Nat}
    (inside : index < 64) :
    ((value &&& BitVec.twoPow 64 index) != 0) = value.getLsbD index := by
  have nonzero : BitVec.twoPow 64 index ≠ 0#64 := by
    intro zero
    have bit := congrArg (BitVec.getLsbD · index) zero
    simp [inside] at bit
  rw [BitVec.and_twoPow]
  cases value.getLsbD index <;> simp [nonzero]

/-! ## The stored entry -/

section StoreBit

variable {bitValue : Register}

theorem storeBit_updates : UpdatesFields [bitValue] (storeBit bitValue) := by
  refine Updates.append (UpdatesFields.computeInto ?_) ?_
  · exact ComputesInto.cons_iff.mpr
      ⟨Inst.computesInto_of_target rfl rfl (by simp),
        ComputesInto.singleton rfl rfl (by simp)⟩
  · exact @UpdatesFields.store _ .sh .carryOperation (by decide) bitValue

/-- The entry for the carry flag is computed from the bit. -/
theorem storeBit_operation
    (scratch : Scratch bitValue)
    (pc : Word)
    {state : State}
    {flag : Bool}
    (value : state.get bitValue = bit flag) :
    fields (applyAll pc state (storeBit bitValue)) .carryOperation =
      (if flag then JumpTable.Entry.carrySet else .carryClear).offset.setWidth
        64 := by
  let entry : JumpTable.Entry := if flag then .carrySet else .carryClear
  have computed : bit flag <<< ((2 : BitVec 8).setWidth 6).toNat +
      signedImm JumpTable.Entry.carryClear.offset =
        entry.offset.setWidth 64 := by
    cases flag <;> decide
  have low : lowBytes 2 (entry.offset.setWidth 64) =
      entry.offset.setWidth 64 := by
    cases flag <;> decide
  have stored := fun pc state =>
    @fields_apply_store .sh .carryOperation rfl bitValue pc state
  simp only [Field.offset] at stored
  simp only [storeBit, updateCarryEntry, sh_eq, List.cons_append,
    List.nil_append, applyAll_cons, applyAll_nil, stored, apply_slli,
    apply_addi, State.set_get_self _ _ scratch.1, value, computed,
    Function.update_self]
  exact low

theorem storeBit_evaluated
    (scratch : Scratch bitValue)
    (pc : Word)
    {state : State}
    {flag : Bool}
    (value : state.get bitValue = bit flag) :
    EvaluatedFlag (fields (applyAll pc state (storeBit bitValue))) .carry
      flag :=
  ⟨_, storeBit_operation scratch pc value, by cases flag <;> rfl⟩

end StoreBit

end BitTest

/-! ## Bits of registers -/

namespace Instruction

variable (inst : Instruction)

/-- The bits are in a register of more than one byte, and the offset is a
register or an immediate. -/
structure RegisterBits : Prop where
  base : ∃ size register, size ≠ .byte ∧
    inst.getOperand 0 = .reg size register .gpl
  offset : (inst.getOperand 1).isReg = true ∨ (inst.getOperand 1).isImm = true

/-- The bit that is selected, which is the offset modulo the operand size. -/
def selectedIndex (state : State) : Nat :=
  (inst.operandValue (inst.getOperand 1) state).toNat %
    inst.destinationSize.bits

/-- The selected bit. -/
def selectedBit (state : State) : Bool :=
  (inst.firstBits state).getLsbD (inst.selectedIndex state)

/-- Some code leaves these values in the registers of the guest, and the
selected bit is in the carry flag when it is evaluated, wherever that is. -/
def TestsBit
    (runtime : JumpTable.Runtime)
    (env : Environment)
    (code : List Inst)
    (expected : Fadec.Register -> Word)
    (state : State) : Prop :=
  ∃ final, (JumpTable.dispatch runtime env).Exits code state (.ended final) ∧
    (∀ reg, final.get (mapReg reg) = expected reg) ∧
    ∀ later : Environment, later.PermitsEverything ->
      Evaluates (JumpTable.dispatch runtime later) evaluateCarry final
        (inst.selectedBit state)

variable {inst}

/-- What straight code leaves decides. -/
theorem testsBit_iff
    {runtime : JumpTable.Runtime}
    {env : Environment}
    (permits : env.PermitsEverything)
    {state : State}
    (aligned : TableAligned state)
    {temps : List Register}
    {code : List Inst}
    (updates : UpdatesFields temps code)
    (table : jumpTableAddress ∉ temps)
    {flag : Bool}
    (evaluated : EvaluatedFlag (fields (applyAll env.origin state code))
      .carry flag)
    (expected : Fadec.Register -> Word) :
    inst.TestsBit runtime env code expected state ↔
      (∀ reg, (applyAll env.origin state code).get (mapReg reg) =
        expected reg) ∧
      flag = inst.selectedBit state := by
  have dispatched : (JumpTable.dispatch runtime env).PermitsEverything :=
    permits
  have exits := @Environment.exits_straight (JumpTable.dispatch runtime env)
    state code updates.straight (dispatched.permitsAll _ _)
  have finalAligned : TableAligned (applyAll env.origin state code) := by
    rw [TableAligned, updates.get _ _ table]
    exact aligned
  constructor
  · rintro ⟨other, otherExits, registers, carry⟩
    injection otherExits.unique exits with same
    subst same
    refine ⟨registers, ?_⟩
    exact (evaluates_of_evaluatedFlag permits finalAligned
      evaluated).unique (carry env permits)
  · rintro ⟨registers, rfl⟩
    exact ⟨_, exits, registers, fun later permitsLater =>
      evaluates_of_evaluatedFlag permitsLater finalAligned evaluated⟩

end Instruction

section Base

variable {inst : Instruction} {size : OperandSize} {number : Fadec.Register}
variable (base : inst.getOperand 0 = .reg size number .gpl)
variable (notByte : size ≠ .byte)

include base

theorem Instruction.destinationSize_eq : inst.destinationSize = size := by
  rw [destinationSize, base]
  rfl

include notByte

theorem Instruction.firstBits_low (state : State) :
    inst.firstBits state =
      (state.get (mapReg number)).setWidth inst.destinationSize.bits := by
  have access : registerAccess (inst.getOperand 0) ≠ .hbyte := by
    rw [base]
    cases size <;>
      simp [registerAccess, RegisterAccess.ofType, RegisterAccess.ofSize]
  have valid : (inst.getOperand 0).valid = true := by
    rw [base]
    cases size with
    | byte => exact absurd rfl notByte
    | _ => rfl
  have low := RegisterAccess.setWidth_part access (state.get (mapReg number))
  rw [registerAccess_bits valid] at low
  refine Eq.trans ?_ low
  simp only [firstBits, operandBits, operandValue, base]
  rfl

end Base

namespace BitTest

section Generate

variable {inst : Instruction} {size : OperandSize} {number : Fadec.Register}
variable (base : inst.getOperand 0 = .reg size number .gpl)
variable (operation : BitTest)

theorem manipulateBit_computesInto (reg : Register) :
    ComputesInto [.t2, reg] (operation.manipulateBit reg) := by
  cases operation with
  | btc | bts => exact ComputesInto.singleton rfl rfl (by simp)
  | btr =>
      exact ComputesInto.cons_iff.mpr
        ⟨Inst.computesInto_of_target rfl rfl (by simp [maskReg]),
          ComputesInto.singleton rfl rfl (by simp)⟩

theorem manipulateBit_value
    {reg : Register}
    (nonzero : reg ≠ .zero)
    (notMask : reg ≠ .t2)
    (pc : Word)
    {state : State}
    {index : Nat}
    (mask : state.get .t2 = BitVec.twoPow 64 index) :
    (applyAll pc state (operation.manipulateBit reg)).get reg =
      operation.result (state.get reg) index := by
  have maskNonzero : Register.t2 ≠ .zero := by decide
  cases operation <;>
    simp [manipulateBit, maskReg, result, State.set_get_self _ _ nonzero,
      State.set_get_self _ _ maskNonzero, State.set_get_of_ne _ _ notMask,
      mask]

/-- The code that tests the bit of a register. -/
def testMasked (inst : Instruction) (reg : Register) : List Inst :=
  loadMask inst ++ [Encoding.and .t1 reg .t2, snez .t1 .t1]

theorem testMasked_computesInto (reg : Register) :
    ComputesInto [.t1, .t2] (testMasked inst reg) :=
  ComputesInto.append_iff.mpr
    ⟨(loadMask_computesInto inst).mono (by simp),
      ComputesInto.cons_iff.mpr
        ⟨Inst.computesInto_of_target rfl rfl (by simp),
          ComputesInto.singleton rfl rfl (by simp)⟩⟩

theorem testMasked_value
    {reg : Register}
    (notMask : reg ≠ .t2)
    (pc : Word)
    (state : State) :
    let after := applyAll pc state (testMasked inst reg)
    after.get .t1 = bit ((state.get reg).getLsbD (testedIndex inst)) ∧
      after.get .t2 = BitVec.twoPow 64 (testedIndex inst) := by
  intro after
  have kept : ∀ pc, (applyAll pc state (loadMask inst)).get reg =
      state.get reg := fun pc =>
    (loadMask_computesInto inst).get _ _ (by simpa using notMask)
  have inside : testedIndex inst < 64 :=
    (testedIndex_lt inst).trans_le inst.destinationSize.bits_le
  simp only [after, testMasked, applyAll_append, applyAll_cons, applyAll_nil,
    apply_and, apply_snez,
    State.set_get_self _ _ (by decide : Register.t1 ≠ .zero),
    State.set_get_of_ne _ _ (by decide : Register.t2 ≠ .t1), kept,
    loadMask_value, masked_bit _ inside, and_self]

include base

/-- The code without the parts for operands in the memory. -/
theorem generate_register :
    operation.generate inst =
      testMasked inst (mapReg number) ++ storeBit .t1 ++
        operation.manipulateBit (mapReg number) := by
  simp only [generate, testMasked, base, bitBaseRegister, readBitBase,
    Operand.isMem, bitValueReg, maskReg, List.nil_append, List.append_nil,
    Bool.false_eq_true, if_false]

theorem generate_updates :
    UpdatesFields [.t1, .t2, mapReg number] (operation.generate inst) := by
  have tests := UpdatesFields.computeInto
    (@testMasked_computesInto inst (mapReg number))
  have changes := UpdatesFields.computeInto
    (manipulateBit_computesInto operation (mapReg number))
  rw [generate_register base operation]
  exact Updates.append
    (Updates.append (tests.mono (by simp)) (storeBit_updates.mono (by simp)))
    (changes.mono (by simp))

theorem generate_value (pc : Word) (state : State) :
    (applyAll pc state (operation.generate inst)).get (mapReg number) =
      operation.result (state.get (mapReg number)) (testedIndex inst) := by
  have nonzero := ne_of_isGuest (isGuest_mapReg number)
    (by decide : isGuest .zero = false)
  have notMask := ne_of_isGuest (isGuest_mapReg number)
    (by decide : isGuest .t2 = false)
  have kept : ∀ pc state, (applyAll pc state (testMasked inst (mapReg number)
      ++ storeBit .t1)).get (mapReg number) = state.get (mapReg number) := by
    intro pc state
    rw [applyAll_append, storeBit_updates.get _ _ (by simp),
      (testMasked_computesInto _).get _ _ (by simp)]
  have mask : ∀ pc, (applyAll pc state (testMasked inst (mapReg number) ++
      storeBit .t1)).get .t2 = BitVec.twoPow 64 (testedIndex inst) := by
    intro pc
    rw [applyAll_append, storeBit_updates.get _ _ (by simp)]
    exact (testMasked_value notMask pc state).2
  rw [generate_register base operation, applyAll_append,
    manipulateBit_value operation nonzero notMask _ (mask pc), kept]

theorem generate_evaluated (pc : Word) (state : State) :
    EvaluatedFlag (fields (applyAll pc state (operation.generate inst)))
      .carry ((state.get (mapReg number)).getLsbD (testedIndex inst)) := by
  have notMask := ne_of_isGuest (isGuest_mapReg number)
    (by decide : isGuest .t2 = false)
  have notContext := ne_of_isGuest (isGuest_mapReg number)
    (by decide : isGuest contextAddress = false)
  have changes := manipulateBit_computesInto operation (mapReg number)
  rw [generate_register base operation, applyAll_append,
    fields_computesInto _ _ changes
      (by simpa using ⟨(by decide : contextAddress ≠ .t2), notContext.symm⟩),
    applyAll_append]
  exact storeBit_evaluated (by decide) _
    (testMasked_value notMask pc state).1

end Generate

end BitTest

namespace Bt

section Generate

variable {inst : Instruction} {size : OperandSize} {number : Fadec.Register}
variable (base : inst.getOperand 0 = .reg size number .gpl)

/-- The bit that `BT` tests.  An offset in a register is not used, and the bit
is the one that the temporary has. -/
def testedBit (inst : Instruction) (state : State) : Bool :=
  if (inst.getOperand 1).isImm then
    (state.get (bitBaseRegister (inst.getOperand 0))).getLsbD
      (immediateBitOffset inst)
  else
    (state.get .t1).getLsbD 0

/-- The code that leaves the tested bit in the temporary. -/
def loadBit (inst : Instruction) (reg : Register) : List Inst :=
  (if (inst.getOperand 1).isImm then
    [srli .t1 reg (BitVec.ofNat 8 (immediateBitOffset inst))]
  else
    []) ++ [andi .t1 .t1 1]

theorem loadBit_computesInto (reg : Register) :
    ComputesInto [.t1] (loadBit inst reg) := by
  refine ComputesInto.append_iff.mpr
    ⟨?_, ComputesInto.singleton rfl rfl (by simp)⟩
  split
  · exact ComputesInto.singleton rfl rfl (by simp)
  · exact ComputesInto.nil

include base

theorem generate_register :
    generate inst = loadBit inst (mapReg number) ++ storeBit .t1 := by
  simp only [generate, loadBit, base, bitBaseRegister, readBitBase,
    List.nil_append, List.append_assoc, List.cons_append]

theorem loadBit_value (pc : Word) (state : State) :
    (applyAll pc state (loadBit inst (mapReg number))).get .t1 =
      bit (testedBit inst state) := by
  have nonzero : Register.t1 ≠ .zero := by decide
  have inside : immediateBitOffset inst < 64 :=
    (Nat.mod_lt _ inst.destinationSize.bits_pos).trans_le
      inst.destinationSize.bits_le
  have shift : ((BitVec.ofNat 8 (immediateBitOffset inst)).setWidth 6).toNat =
      immediateBitOffset inst := by
    simp only [BitVec.toNat_setWidth, BitVec.toNat_ofNat]
    omega
  unfold loadBit testedBit
  split
  · simp only [base, bitBaseRegister, List.cons_append, List.nil_append,
      applyAll_cons, applyAll_nil, apply_srli, apply_andi,
      State.set_get_self _ _ nonzero, and_one, shift,
      BitVec.getLsbD_ushiftRight, Nat.add_zero]
  · simp only [List.nil_append, applyAll_cons, applyAll_nil, apply_andi,
      State.set_get_self _ _ nonzero, and_one]

theorem generate_updates : UpdatesFields [.t1] (generate inst) := by
  rw [generate_register base]
  exact Updates.append
    (UpdatesFields.computeInto (loadBit_computesInto _))
    BitTest.storeBit_updates

theorem generate_evaluated (pc : Word) (state : State) :
    EvaluatedFlag (fields (applyAll pc state (generate inst))) .carry
      (testedBit inst state) := by
  rw [generate_register base, applyAll_append]
  exact BitTest.storeBit_evaluated (by decide) _
    (loadBit_value base pc state)

end Generate

end Bt

/-! ## The tested bits -/

section Tests

variable {inst : Instruction} (form : inst.RegisterBits)
variable {runtime : JumpTable.Runtime} {env : Environment}
variable (permits : env.PermitsEverything) {state : State}
variable (aligned : TableAligned state)

theorem Instruction.selectedIndex_lt (state : State) :
    inst.selectedIndex state < inst.destinationSize.bits :=
  Nat.mod_lt _ inst.destinationSize.bits_pos

/-- An immediate selects the bit that the mask stands for. -/
theorem BitTest.testedIndex_immediate
    (isImm : (inst.getOperand 1).isImm = true)
    (state : State) : testedIndex inst = inst.selectedIndex state := by
  rw [testedIndex, if_pos isImm, immediateBitOffset, selectedIndex]
  cases operand : inst.getOperand 1 with
  | imm size => rfl
  | _ =>
      rw [operand] at isImm
      cases isImm

theorem BitTest.testedIndex_register
    (noImm : (inst.getOperand 1).isImm ≠ true) :
    testedIndex inst = 0 := by
  rw [testedIndex, if_neg noImm]

include form permits aligned

/-- `BT` tests the selected bit if and only if it has been selected by an
immediate or is the same as the bit in the temporary. -/
theorem Bt.generate_testsBit_iff :
    inst.TestsBit runtime env (generate inst)
        (fun reg => state.get (mapReg reg)) state ↔
      (inst.getOperand 1).isImm = true ∨
        (state.get .t1).getLsbD 0 = inst.selectedBit state := by
  obtain ⟨size, number, notByte, base⟩ := form.base
  have updates := @Bt.generate_updates inst size number base
  rw [testsBit_iff permits aligned updates (by decide)
    (generate_evaluated base _ _)]
  have kept : ∀ reg, (applyAll env.origin state (generate inst)).get
      (mapReg reg) = state.get (mapReg reg) := fun reg =>
    updates.get _ _ (by simp)
  simp only [kept, implies_true, true_and, testedBit]
  by_cases isImm : (inst.getOperand 1).isImm = true
  · have index : immediateBitOffset inst = inst.selectedIndex state := by
      rw [← BitTest.testedIndex_immediate isImm state, BitTest.testedIndex,
        if_pos isImm]
    have inside := inst.selectedIndex_lt state
    simp only [isImm, if_true, true_or, selectedBit, index,
      firstBits_low base notByte, BitVec.getLsbD_setWidth, inside,
      decide_true, Bool.true_and, base, bitBaseRegister]
  · simp only [isImm, if_false, false_or, Bool.false_eq_true]

/-- The other operations change the selected bit and put it into the carry flag
if and only if the upper half of a register of 32 bits is zero and the bit has
been selected by an immediate, or what is done to the first bit instead does no
harm. -/
theorem BitTest.generate_testsBit_iff (operation : BitTest) :
    inst.TestsBit runtime env (operation.generate inst)
        (writtenRegisters (inst.getOperand 0)
          ((operation.result (inst.firstBits state)
            (inst.selectedIndex state)).setWidth 64) state) state ↔
      (inst.destinationSize = .dword ->
        let base := state.get (bitBaseRegister (inst.getOperand 0))
        RegisterAccess.dword.part base = base) ∧
      ((inst.getOperand 1).isImm = true ∨
        operation.Harmless (inst.firstBits state)
          (inst.selectedIndex state)) := by
  obtain ⟨size, number, notByte, base⟩ := form.base
  have updates := generate_updates base operation
  have value := generate_value base operation env.origin state
  have others : ∀ reg, mapReg reg ≠ mapRegType number .gpl ->
      (applyAll env.origin state (operation.generate inst)).get (mapReg reg) =
        state.get (mapReg reg) := by
    intro reg different
    have notBase : mapReg reg ≠ mapReg number := different
    exact updates.get _ _ (by simp [notBase])
  have written : ∀ word,
      (∀ reg, (applyAll env.origin state (operation.generate inst)).get
          (mapReg reg) = writtenRegisters (inst.getOperand 0) word state reg) ↔
        operation.result (state.get (mapReg number)) (testedIndex inst) =
          (RegisterAccess.ofSize size).merge (state.get (mapReg number))
            word := by
    intro word
    rw [base, ← value]
    exact Instruction.writtenRegisters_iff others word
  have table : jumpTableAddress ∉ [Register.t1, .t2, mapReg number] := by
    have different := ne_of_isGuest (isGuest_mapReg number)
      (by decide : isGuest jumpTableAddress = false)
    simpa using ⟨(by decide : jumpTableAddress ≠ .t1),
      (by decide : jumpTableAddress ≠ .t2), different.symm⟩
  rw [testsBit_iff permits aligned updates table
    (generate_evaluated base operation _ _),
    written]
  obtain rfl := destinationSize_eq base
  have inside := testedIndex_lt inst
  have selectedInside := inst.selectedIndex_lt state
  have tested : (state.get (mapReg number)).getLsbD (testedIndex inst) =
      (inst.firstBits state).getLsbD (testedIndex inst) := by
    simp [firstBits_low base notByte, inside]
  rw [tested, firstBits_low base notByte,
    operation.result_eq_merge_iff notByte _ inside, and_assoc]
  refine and_congr (by rw [base]; rfl) ?_
  rw [selectedBit, firstBits_low base notByte]
  by_cases isImm : (inst.getOperand 1).isImm = true
  · simp [isImm, testedIndex_immediate isImm state]
  · rw [testedIndex_register isImm,
      operation.result_zero_eq_iff selectedInside]
    simp [isImm]

/-- An offset in a register is not used, and the upper half of a register of 32
bits is kept: the bit tests do what they should if and only if neither makes a
difference. -/
theorem bitTests_selectBit_iff :
    (inst.TestsBit runtime env (Bt.generate inst)
        (fun reg => state.get (mapReg reg)) state ↔
      (inst.getOperand 1).isImm = true ∨
        (state.get .t1).getLsbD 0 = inst.selectedBit state) ∧
    ∀ operation : BitTest,
      inst.TestsBit runtime env (operation.generate inst)
          (writtenRegisters (inst.getOperand 0)
            ((operation.result (inst.firstBits state)
              (inst.selectedIndex state)).setWidth 64) state) state ↔
        (inst.destinationSize = .dword ->
          let base := state.get (bitBaseRegister (inst.getOperand 0))
          RegisterAccess.dword.part base = base) ∧
        ((inst.getOperand 1).isImm = true ∨
          operation.Harmless (inst.firstBits state)
            (inst.selectedIndex state)) :=
  ⟨Bt.generate_testsBit_iff form permits aligned,
    BitTest.generate_testsBit_iff form permits aligned⟩

end Tests

/-- `bts rax, rcx` -/
def btsRaxRcx : Instruction :=
  (InstructionClass.bitTest .bts).construct
    { type := .bts, operands := [.reg .qword 0 .gpl, .reg .qword 1 .gpl] }

/-- The first and the third bit are set, of which the third one is selected. -/
def thirdBitState : State :=
  ((zeroState.set (mapReg 0) 5).set (mapReg 1) 2).set .t1 1

theorem bitTests_selectBit_iff_btsRaxRcx :
    btsRaxRcx.TestsBit (fun _ _ => none) Stub.environment
        (Bt.generate btsRaxRcx) (fun reg => thirdBitState.get (mapReg reg))
        thirdBitState ∧
      btsRaxRcx.TestsBit (fun _ _ => none) Stub.environment
        (BitTest.bts.generate btsRaxRcx)
        (writtenRegisters (btsRaxRcx.getOperand 0)
          ((BitTest.bts.result (btsRaxRcx.firstBits thirdBitState)
            (btsRaxRcx.selectedIndex thirdBitState)).setWidth 64)
          thirdBitState) thirdBitState := by
  obtain ⟨tests, changes⟩ := @bitTests_selectBit_iff btsRaxRcx
    ⟨⟨.qword, 0, by decide, rfl⟩, Or.inl rfl⟩ (fun _ _ => none)
    Stub.environment (fun _ _ => rfl) thirdBitState (by decide)
  refine ⟨tests.mpr (Or.inr (by decide +kernel)), (changes .bts).mpr ⟨?_, ?_⟩⟩
  · intro dword
    cases dword
  · exact Or.inr (Or.inr (by decide +kernel))

/-- The second bit is selected. -/
def secondBitState : State := zeroState.set (mapReg 1) 1

/-- The first bit is set, and the second bit stays clear. -/
theorem btsRaxRcx_setsFirst :
    ¬ btsRaxRcx.TestsBit (fun _ _ => none) Stub.environment
      (BitTest.bts.generate btsRaxRcx)
      (writtenRegisters (btsRaxRcx.getOperand 0)
        ((BitTest.bts.result (btsRaxRcx.firstBits secondBitState)
          (btsRaxRcx.selectedIndex secondBitState)).setWidth 64)
        secondBitState) secondBitState := by
  rw [BitTest.generate_testsBit_iff ⟨⟨.qword, 0, by decide, rfl⟩, Or.inl rfl⟩
    (fun _ _ => rfl) (by decide)]
  rintro ⟨-, immediate | first | ⟨-, fixed⟩⟩
  · exact absurd immediate (by decide)
  · exact absurd first (by decide +kernel)
  · exact absurd fixed (by decide +kernel)

end Oxtra

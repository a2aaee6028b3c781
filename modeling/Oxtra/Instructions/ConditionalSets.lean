import Oxtra.Instruction.Modifications
import Oxtra.Instructions.ConditionalJumps

/-!
# Conditional sets

The code of a conditional set evaluates its condition in `t0` or in `t4` and
writes the value to its destination.  The write uses `t0` as a temporary, even
if the value is in it.
-/

namespace Oxtra

open RiscV
open Encoding
open Helper
open FlagInfo
open Instruction
open Fadec (Operand OperandSize)

/-! ## Evaluating a condition -/

/-- The temporaries are no registers of the guest. -/
theorem Unchanged.guest_eq
    {before after : State}
    (unchanged : Unchanged jumpScratch before after)
    (reg : Fadec.Register) :
    after.get (mapReg reg) = before.get (mapReg reg) := by
  apply unchanged.registers
  intro member
  have others : ∀ register ∈ jumpScratch, isGuest register = false := by
    decide
  exact absurd (isGuest_mapReg reg) (by rw [others _ member]; decide)

theorem bit_or_bit (first second : Bool) :
    bit first ||| bit second = bit (first || second) := by
  cases first <;> cases second <;> rfl

/-- Flags differ if and only if their bits do. -/
theorem bit_xor_eq (first second : Bool) :
    bit first ^^^ bit second = bit (first != second) := by
  cases first <;> cases second <;> rfl

namespace Setcc

/-- The register that the value of a condition is evaluated in. -/
def valueRegister : Condition -> Register
  | .c | .o | .p | .s | .z => .t4
  | _ => .t0

section Evaluate

variable {runtime : JumpTable.Runtime} {env : Environment} {state : State}
variable {flags : Flag -> Bool}

/-- The zero flag stays in `t0` while the carry flag is evaluated. -/
theorem zeroCarry_ends
    (permits : env.PermitsEverything)
    (aligned : TableAligned state)
    (lazyFlags : LazyFlags runtime state flags) :
    ∃ next, (JumpTable.dispatch runtime env).Exits
        (evaluateZero .t0 ++ evaluateCarry) state (.ended next) ∧
      next.get .t0 = bit (flags .zero) ∧
      next.get .t4 = bit (flags .carry) ∧
      Unchanged jumpScratch state next := by
  obtain ⟨zeroed, zeroExits, zero, zeroUnchanged⟩ :=
    @evaluateZeroInto_ends runtime env state flags permits lazyFlags .t0
      (by decide) (by decide)
  let later := env.shift (evaluateZero .t0).length
  have permitsLater : later.PermitsEverything := permits
  obtain ⟨next, exits, carry, unchanged⟩ :=
    evaluateCarry_ends permitsLater (lazyFlags.of_unchanged zeroUnchanged)
      (aligned.of_unchanged zeroUnchanged)
  refine ⟨next, zeroExits.append exits (by simp), ?_, carry,
    zeroUnchanged.trans contextAddress_not_mem (unchanged.mono (by decide))⟩
  rw [unchanged.registers _ (by decide), zero]

/-- A value is computed from two flags. -/
theorem endsWith_of_pair
    {code further : List Inst}
    {first second value : Bool}
    (permits : env.PermitsEverything)
    (pair : ∃ next, env.Exits code state (.ended next) ∧
      next.get .t0 = bit first ∧ next.get .t4 = bit second ∧
        Unchanged jumpScratch state next)
    (targets : Targets jumpScratch further)
    (computes : ∀ pc next, next.get .t0 = bit first ->
      next.get .t4 = bit second -> fields next = fields state ->
        (applyAll pc next further).get .t0 = bit value) :
    EndsWith env (code ++ further) jumpScratch state .t0 value := by
  obtain ⟨next, exits, firstValue, secondValue, unchanged⟩ := pair
  have permitsLater : (env.shift code.length).PermitsEverything := permits
  have same := unchanged.fields_eq contextAddress_not_mem
  obtain ⟨final, exitsFurther, computed, unchangedFurther⟩ :=
    endsWith_of_targets permitsLater targets
      (computes _ next firstValue secondValue same)
  exact ⟨final, exits.append exitsFurther (by simp), computed,
    unchanged.trans contextAddress_not_mem unchangedFurther⟩

/-- A flag is negated. -/
theorem endsWith_negated
    {code : List Inst}
    {flag : Bool}
    (permits : env.PermitsEverything)
    (ends : EndsWith env code jumpScratch state .t4 flag) :
    EndsWith env (code ++ [seqz .t0 .t4]) jumpScratch state .t0 (!flag) := by
  obtain ⟨next, exits, value, unchanged⟩ := ends
  have permitsLater : (env.shift code.length).PermitsEverything := permits
  obtain ⟨final, exitsFurther, computed, unchangedFurther⟩ :=
    @endsWith_of_targets _ [seqz .t0 .t4] jumpScratch next .t0 (!flag)
      permitsLater (by decide) (by
        rw [applyAll_cons, applyAll_nil, apply_seqz,
          State.set_get_self _ _ (by decide), value, bit_beq_zero])
  exact ⟨final, exits.append exitsFurther (by simp), computed,
    unchanged.trans contextAddress_not_mem unchangedFurther⟩

section Values

variable {pc : Word} {next : State} {first second : Bool}
variable (firstValue : next.get .t0 = bit first)
variable (secondValue : next.get .t4 = bit second)

include firstValue

theorem negated_value :
    (applyAll pc next [seqz .t0 .t0]).get .t0 = bit (!first) := by
  rw [applyAll_cons, applyAll_nil, apply_seqz,
    State.set_get_self _ _ (by decide), firstValue, bit_beq_zero]

include secondValue

theorem joined_value :
    (applyAll pc next [Encoding.or .t0 .t0 .t4]).get .t0 =
      bit (first || second) := by
  rw [applyAll_cons, applyAll_nil, apply_or,
    State.set_get_self _ _ (by decide), firstValue, secondValue, bit_or_bit]

theorem compared_value :
    (applyAll pc next [Encoding.xor .t0 .t0 .t4]).get .t0 =
      bit (first != second) := by
  rw [applyAll_cons, applyAll_nil, apply_xor,
    State.set_get_self _ _ (by decide), firstValue, secondValue, bit_xor_eq]

/-- The zero flag is joined to a comparison of the others. -/
theorem comparedJoined_value
    {third : Bool}
    (zero : (fields next .zeroValue == 0) = third) :
    (applyAll pc next ([Encoding.xor .t0 .t0 .t4] ++ evaluateZero .t4 ++
      [Encoding.or .t0 .t0 .t4])).get .t0 =
        bit (first != second || third) := by
  have compared := @compared_value pc next first second firstValue secondValue
  have kept : ∀ pc state,
      (applyAll pc state (evaluateZero .t4)).get .t0 = state.get .t0 := by
    intro pc state
    exact applyAll_get_of_not_target pc state (by decide)
  have sameFields : fields (applyAll pc next [Encoding.xor .t0 .t0 .t4]) =
      fields next := by
    rw [applyAll_cons, applyAll_nil, apply_xor, fields_set _ (by decide)]
  rw [applyAll_append, applyAll_append]
  apply joined_value
  · rw [kept, compared]
  · rw [evaluateZero_value _ _ (by decide), sameFields, zero]

end Values

/-- The value of the condition is in its register. -/
theorem evaluate_ends
    (permits : env.PermitsEverything)
    (aligned : TableAligned state)
    (lazyFlags : LazyFlags runtime state flags)
    (condition : Condition) :
    EndsWith (JumpTable.dispatch runtime env) (evaluate condition).1
      jumpScratch state (valueRegister condition)
      (condition.holds flags) := by
  have scratch : evaluationScratch ⊆ jumpScratch := by decide
  have dispatched : (JumpTable.dispatch runtime env).PermitsEverything :=
    permits
  have carry := (evaluateCarry_ends permits lazyFlags aligned).mono scratch
  have overflow :=
    (evaluateOverflow_ends permits lazyFlags aligned).mono scratch
  have parity := @evaluateParity_ends runtime env state flags permits lazyFlags
  have zero := @evaluateZero_ends runtime env state flags permits lazyFlags
  have sign := @evaluateSign_ends runtime env state flags permits lazyFlags
    .t4 .t0 (by decide) (by decide) (by decide) (by decide) (by decide)
  have zeroCarry := zeroCarry_ends permits aligned lazyFlags
  have signOverflow := signOverflow_ends permits aligned lazyFlags
  have equal : (!(flags .sign != flags .overflow)) =
      (flags .sign == flags .overflow) := by
    cases flags .sign <;> cases flags .overflow <;> rfl
  cases condition with
  | c => exact carry
  | o => exact overflow
  | p => exact parity
  | s => exact sign
  | z => exact zero
  | nc => exact endsWith_negated dispatched carry
  | no => exact endsWith_negated dispatched overflow
  | np => exact endsWith_negated dispatched parity
  | ns => exact endsWith_negated dispatched sign
  | nz => exact endsWith_negated dispatched zero
  | a =>
      apply endsWith_of_pair dispatched zeroCarry (by decide)
      intro pc next first second _
      rw [← List.singleton_append, applyAll_append,
        negated_value (joined_value first second), Bool.not_or]
      rfl
  | be =>
      apply endsWith_of_pair dispatched zeroCarry (by decide)
      intro pc next first second _
      exact joined_value first second
  | ge =>
      apply endsWith_of_pair dispatched signOverflow (by decide)
      intro pc next first second _
      rw [← List.singleton_append, applyAll_append,
        negated_value (compared_value first second), equal]
      rfl
  | l =>
      apply endsWith_of_pair dispatched signOverflow (by decide)
      intro pc next first second _
      exact compared_value first second
  | g =>
      change EndsWith _ (evaluateSign .t0 .t5 ++ evaluateOverflow ++
        (([Encoding.xor .t0 .t0 .t4] ++ evaluateZero .t4 ++
          [Encoding.or .t0 .t0 .t4]) ++ [seqz .t0 .t0])) _ _ _ _
      apply endsWith_of_pair dispatched signOverflow (by decide)
      intro pc next first second same
      have zeroFlag : (fields next .zeroValue == 0) = flags .zero := by
        rw [same, lazyFlags.zero]
      rw [applyAll_append,
        negated_value (comparedJoined_value first second zeroFlag)]
      rw [Bool.not_or, Bool.and_comm, equal]
      rfl
  | le =>
      change EndsWith _ (evaluateSign .t0 .t5 ++ evaluateOverflow ++
        ([Encoding.xor .t0 .t0 .t4] ++ evaluateZero .t4 ++
          [Encoding.or .t0 .t0 .t4])) _ _ _ _
      apply endsWith_of_pair dispatched signOverflow (by decide)
      intro pc next first second same
      have zeroFlag : (fields next .zeroValue == 0) = flags .zero := by
        rw [same, lazyFlags.zero]
      rw [comparedJoined_value first second zeroFlag, Bool.or_comm]
      rfl

end Evaluate

end Setcc

/-! ## Writing the value -/

namespace Instruction

variable (inst : Instruction)

/-- The memory after a byte has been written to the destination. -/
def writtenByte (value : Bool) (state : State) : Memory :=
  match inst.getOperand 0 with
  | .mem size base =>
      state.mem.store (inst.guestAddress (.mem size base) state) 1 (bit value)
  | _ => state.mem

/-- The accesses of a write of a byte to the destination. -/
def byteAccesses (value : Bool) (state : State) : List Access :=
  match inst.getOperand 0 with
  | .mem size base =>
      [.store (inst.guestAddress (.mem size base) state) 1 value.toNat]
  | _ => []

/-- One byte, which is zero or one, is written to the destination and nothing
else: the other registers of the guest and the other memory, with the lazy
information, stay the same. -/
structure WritesByte
    (inst : Instruction)
    (value : Bool)
    (state : State)
    (accesses : List Access)
    (final : State) : Prop where
  accesses : accesses = inst.byteAccesses value state
  registers : ∀ reg, final.get (mapReg reg) =
    writtenRegisters (inst.getOperand 0) (bit value) state reg
  memory : ∀ address,
    savedBytes ≤ (address - state.get contextAddress).toNat ->
      final.mem address = inst.writtenByte value state address

/-- Some code writes one byte to the destination and nothing else. -/
def SetsByte
    (env : Environment)
    (code : List Inst)
    (value : Bool)
    (state : State) : Prop :=
  ∃ visited final, env.Traces code state visited (.ended final) ∧
    inst.WritesByte value state (accessesApart contextAddress visited) final

/-- The destination is a byte in a register or in the memory. -/
structure ByteDestination : Prop where
  size : (inst.getOperand 0).size = .byte
  rm : (inst.getOperand 0).isRm = true

end Instruction

namespace Setcc

/-- The value of a condition is not lost in front of the write: a high byte
and an address that has to be computed overwrite `t0`. -/
def ValueSurvives
    (inst : Instruction)
    (condition : Condition)
    (value : Bool)
    (state : State) : Prop :=
  match inst.getOperand 0 with
  | .reg _ register .gph => valueRegister condition = .t0 ->
      (state.get (mapRegHigh register)).extractLsb' 8 8 =
        (bit value).setWidth 8
  | .mem size base => inst.AddressFits (.mem size base) state ∧
      (valueRegister condition = .t0 ->
        inst.computesAddress (.mem size base) = true ->
          (inst.partialAddress (.mem size base) state).setWidth 8 =
            (bit value).setWidth 8)
  | _ => True

section Write

variable {inst : Instruction} {value : Bool}
variable {env : Environment} {state middle : State}

/-- A run has one trace and one end only. -/
theorem setsByte_iff_of_exits
    {first tail : List Inst}
    (permits : env.PermitsEverything)
    (exits : env.Exits first state (.ended middle))
    (hidden : ∀ written ∈ first,
      written.base = none ∨ written.base = some contextAddress)
    (straight : ∀ written ∈ tail, written.isStraight = true) :
    let pc := (env.shift first.length).origin
    inst.SetsByte env (first ++ tail) value state ↔
      inst.WritesByte value state
        (accessesApart contextAddress
          (Environment.straightTrace pc middle tail))
        (applyAll pc middle tail) := by
  intro pc
  obtain ⟨visited, traces⟩ := exits.traces
  have permitsLater : (env.shift first.length).PermitsEverything := permits
  have last := @Environment.traces_straight (env.shift first.length) middle
    tail straight (permitsLater.permitsAll middle tail)
  have whole := traces.append last (by simp)
  have nothing : accessesApart contextAddress visited = [] :=
    accessesApart_eq_nil fun visit member =>
      hidden _ (traces.mem_code member)
  constructor
  · rintro ⟨other, otherFinal, otherTraces, writes⟩
    obtain ⟨rfl, same⟩ := otherTraces.unique whole
    cases same
    rw [accessesApart_append, nothing, List.nil_append] at writes
    exact writes
  · intro writes
    refine ⟨_, _, whole, ?_⟩
    rw [accessesApart_append, nothing, List.nil_append]
    exact writes

/-- The evaluation accesses the context only. -/
theorem evaluate_hidden (condition : Condition) :
    ∀ written ∈ (evaluate condition).1,
      written.base = none ∨ written.base = some contextAddress := by
  cases condition <;> decide

end Write

/-! ## Destinations in registers -/

section Register

variable {dst reg : Register} (pc : Word) (state : State)

/-- The value of a condition is a byte. -/
theorem mergeCleared_lbyte (old : Word) (value : Bool) :
    (old &&& signedImm (-0x100 : BitVec 16)) ||| bit value =
      RegisterAccess.lbyte.merge old (bit value) := by
  have low : bit value &&& signedImm (0xff : BitVec 16) = bit value := by
    cases value <;> decide
  rw [← merge_lbyte, low]

/-- The value goes to the low byte, which has been cleared. -/
theorem moveToRegister_cleared_lbyte
    (nonzero : dst ≠ .zero)
    (different : reg ≠ dst)
    {value : Bool}
    (evaluated : state.get reg = bit value) :
    (applyAll pc state (moveToRegister dst reg .lbyte .t0 true)).get dst =
      RegisterAccess.lbyte.merge (state.get dst) (bit value) := by
  simp only [moveToRegister, if_true, applyAll_cons, applyAll_nil, apply_andi,
    apply_or, State.set_get_self _ _ nonzero,
    State.set_get_of_ne _ _ different, evaluated, mergeCleared_lbyte]

/-- A high byte stays as it is when the value is in the temporary. -/
theorem moveToRegister_hbyte_lost
    (nonzero : dst ≠ .zero)
    (different : dst ≠ .t0) :
    (applyAll pc state (moveToRegister dst .t0 .hbyte .t0 true)).get dst =
      state.get dst := by
  simp [moveToRegister, State.set_get_self _ _ nonzero,
    State.set_get_self _ _ (by decide : Register.t0 ≠ .zero),
    State.set_get_of_ne _ _ different]

/-- The high byte has been the same before. -/
theorem merge_hbyte_eq_iff (old value : Word) :
    RegisterAccess.hbyte.merge old value = old ↔
      old.extractLsb' 8 8 = value.setWidth 8 := by
  have whole : old = RegisterAccess.hbyte.merge old
      ((old.extractLsb' 8 8).setWidth 64) := by
    apply BitVec.eq_of_getLsbD_eq
    intro index inside
    simp only [RegisterAccess.merge, BitVec.getLsbD_append,
      BitVec.getLsbD_extractLsb', BitVec.getLsbD_setWidth]
    grind
  have byte := RegisterAccess.extract_merge_hbyte old value
  constructor
  · intro same
    rw [same] at byte
    exact byte
  · intro same
    nth_rewrite 2 [whole]
    apply RegisterAccess.merge_congr
    rw [same]
    simp [RegisterAccess.bits]

end Register

section RegisterDestination

variable {inst : Instruction} {condition : Condition} {value : Bool}
variable {state middle : State}
variable {register : Fadec.Register} {type : Fadec.RegisterType}
variable (destination : inst.getOperand 0 = .reg .byte register type)

include destination

theorem setValue_register (reg : Register) :
    setValue inst reg =
      moveToRegister (mapRegType register type) reg
        (RegisterAccess.ofType .byte type) .t0 true := by
  rw [setValue, destination]
  cases type <;> rfl

/-- The part of the register has the value if and only if the value is not
lost. -/
theorem setValue_part_iff
    (evaluated : middle.get (valueRegister condition) = bit value)
    (unchanged : Unchanged jumpScratch state middle)
    (pc : Word) :
    let dst := mapRegType register type
    (applyAll pc middle (setValue inst (valueRegister condition))).get dst =
        (RegisterAccess.ofType .byte type).merge (state.get dst)
          (bit value) ↔
      ValueSurvives inst condition value state := by
  intro dst
  have guest : isGuest dst = true := isGuest_mapRegType register type
  have nonzero : dst ≠ .zero := ne_of_isGuest guest (by decide)
  have notTemp : dst ≠ .t0 := ne_of_isGuest guest (by decide)
  have notValue : valueRegister condition ≠ dst := by
    refine (ne_of_isGuest guest ?_).symm
    cases condition <;> rfl
  have kept : middle.get dst = state.get dst := by
    apply unchanged.registers
    intro member
    have others : ∀ register ∈ jumpScratch, isGuest register = false := by
      decide
    rw [others _ member] at guest
    cases guest
  rw [setValue_register destination, ValueSurvives, destination]
  cases type with
  | gpl =>
      simp only [iff_true]
      rw [← kept]
      exact moveToRegister_cleared_lbyte pc middle nonzero notValue evaluated
  | gph =>
      by_cases lost : valueRegister condition = .t0
      · simp only [lost, true_imp_iff]
        rw [← merge_hbyte_eq_iff, eq_comm]
        rw [show RegisterAccess.ofType .byte .gph = .hbyte from rfl,
          moveToRegister_hbyte_lost pc middle nonzero notTemp, kept]
        rfl
      · simp only [lost, false_imp_iff, iff_true]
        have high : RegisterAccess.ofType .byte .gph = .hbyte := rfl
        have moved := @moveToRegister_value dst (valueRegister condition) .t0
          pc middle nonzero (by decide) notTemp.symm (Ne.symm lost) .hbyte
          (fun _ => notValue)
        rw [← kept, ← evaluated, high]
        exact moved

/-- The write to a register. -/
theorem setValue_register_writes_iff
    (evaluated : middle.get (valueRegister condition) = bit value)
    (unchanged : Unchanged jumpScratch state middle)
    (pc : Word) :
    inst.WritesByte value state
        (accessesApart contextAddress (Environment.straightTrace pc middle
          (setValue inst (valueRegister condition))))
        (applyAll pc middle (setValue inst (valueRegister condition))) ↔
      ValueSurvives inst condition value state := by
  have computes : ComputesInto [mapRegType register type, .t0]
      (setValue inst (valueRegister condition)) := by
    rw [setValue_register destination]
    exact moveToRegister_computesInto _ _
  refine Iff.trans ?_ (setValue_part_iff destination evaluated unchanged pc)
  constructor
  · intro writes
    obtain ⟨reg, same⟩ : ∃ reg, mapRegType register type = mapReg reg := by
      cases type with
      | gpl => exact ⟨register, rfl⟩
      | gph => exact ⟨register - 4, rfl⟩
    have written := writes.registers reg
    rw [destination] at written
    simp only [writtenRegisters, same, if_true] at written
    rw [same]
    exact written
  · intro part
    refine ⟨?_, fun reg => ?_, fun address outside => ?_⟩
    · rw [computes.accessesApart, byteAccesses, destination]
    · rw [destination]
      simp only [writtenRegisters]
      split
      · rename_i same
        rw [same]
        exact part
      · rename_i other
        rw [computes.get _ _ (by
          simp [other, ne_of_isGuest (isGuest_mapReg reg)
            (by decide : isGuest .t0 = false)])]
        exact Unchanged.guest_eq unchanged reg
    · rw [computes.mem, writtenByte, destination]
      exact unchanged.memory address outside

end RegisterDestination

/-! ## Destinations in the memory -/

section MemoryDestination

variable {inst : Instruction} {condition : Condition} {value : Bool}
variable {state middle : State} {base : Option Fadec.Register}
variable (destination : inst.getOperand 0 = .mem .byte base)
variable (noOverride : inst.NoOverride)
variable (evaluated : middle.get (valueRegister condition) = bit value)
variable (unchanged : Unchanged jumpScratch state middle)

/-- What is in the register of the value behind the computation of the
address. -/
def storedValue
    (inst : Instruction)
    (condition : Condition)
    (op : Operand)
    (value : Bool)
    (state : State) : Word :=
  if valueRegister condition = .t0 ∧ inst.computesAddress op = true then
    inst.partialAddress op state
  else
    bit value

theorem valueRegister_ne (condition : Condition) :
    valueRegister condition ≠ .t1 ∧
      (valueRegister condition ≠ .t0 -> valueRegister condition = .t4) := by
  cases condition <;> decide

include noOverride evaluated unchanged

theorem writeBase_storedValue (op : Operand) (pc : Word) :
    (applyAll pc middle (inst.writeBase op .t0 .t1 .zero).1).get
        (valueRegister condition) =
      storedValue inst condition op value state := by
  have same := inst.partialAddress_congr (Unchanged.guest_eq unchanged) op
  have lost := @NoOverride.writeBase_getA inst op .t0 .t1 noOverride pc middle
    (by decide) (by decide) (by decide) (by decide)
  obtain ⟨notB, other⟩ := valueRegister_ne condition
  rw [storedValue]
  by_cases first : valueRegister condition = .t0
  · rw [first] at evaluated ⊢
    rw [lost, same, evaluated]
    simp
  · rw [if_neg (fun both => first both.1),
      inst.writeBase_get pc middle .t0 .t1 .zero first notB, evaluated]

include destination

theorem setValue_memory_accesses (pc : Word) :
    accessesApart contextAddress (Environment.straightTrace pc middle
        (setValue inst (valueRegister condition))) =
      [.store (inst.accessedAddress (.mem .byte base) state) 1
        ((storedValue inst condition (.mem .byte base) value state).toNat %
          256)] := by
  have reached := @NoOverride.writeBase_accessed inst (.mem .byte base) .t0
    .t1 noOverride pc middle (by decide) (by decide) (by decide) (by decide)
  have stores := @writeToMemory_stores inst (.mem .byte base) pc middle .t0
    .t1 (valueRegister condition) .zero _ (by decide) (by decide) (by decide)
    reached
  rw [writeBase_storedValue noOverride evaluated unchanged,
    inst.accessedAddress_congr (Unchanged.guest_eq unchanged)] at stores
  rw [setValue, destination]
  exact stores

theorem setValue_memory_apply (pc : Word) :
    let final := applyAll pc middle
      (setValue inst (valueRegister condition))
    (∀ reg, final.get (mapReg reg) = state.get (mapReg reg)) ∧
      final.mem = middle.mem.store
        (inst.accessedAddress (.mem .byte base) state) 1
        (storedValue inst condition (.mem .byte base) value state) := by
  have reached := @NoOverride.writeBase_accessed inst (.mem .byte base) .t0
    .t1 noOverride pc middle (by decide) (by decide) (by decide) (by decide)
  have applied := @writeToMemory_apply inst (.mem .byte base) pc middle .t0
    .t1 (valueRegister condition) .zero _ reached
  have code : setValue inst (valueRegister condition) =
      inst.writeToMemory (.mem .byte base) (valueRegister condition) .t0 .t1
        .zero := by
    rw [setValue, destination]
  simp only [writeBase_storedValue noOverride evaluated unchanged,
    inst.accessedAddress_congr (Unchanged.guest_eq unchanged)] at applied
  rw [code, applied]
  constructor
  · intro reg
    rw [State.store_get, inst.writeBase_get, Unchanged.guest_eq unchanged]
    · exact ne_of_isGuest (isGuest_mapReg reg) (by decide)
    · exact ne_of_isGuest (isGuest_mapReg reg) (by decide)
  · rw [State.store_mem, inst.writeBase_mem]
    rfl

omit destination noOverride evaluated unchanged in
/-- The byte that is stored is the value, unless the address has taken its
register. -/
theorem storedValue_iff (op : Operand) :
    (storedValue inst condition op value state).toNat % 256 = value.toNat ↔
      (valueRegister condition = .t0 -> inst.computesAddress op = true ->
        (inst.partialAddress op state).setWidth 8 =
          (bit value).setWidth 8) := by
  have byte : ∀ word : Word, word.toNat % 256 = value.toNat ↔
      word.setWidth 8 = (bit value).setWidth 8 := by
    intro word
    have bits : (bit value).toNat % 256 = value.toNat := by
      cases value <;> rfl
    rw [← BitVec.toNat_inj, BitVec.toNat_setWidth, BitVec.toNat_setWidth,
      ← bits]
  rw [byte, storedValue]
  by_cases lost : valueRegister condition = .t0 ∧
      inst.computesAddress op = true
  · simp [lost]
  · simp only [if_neg lost, true_iff]
    exact fun first computes => absurd ⟨first, computes⟩ lost

/-- The write to the memory. -/
theorem setValue_memory_writes_iff (pc : Word) :
    inst.WritesByte value state
        (accessesApart contextAddress (Environment.straightTrace pc middle
          (setValue inst (valueRegister condition))))
        (applyAll pc middle (setValue inst (valueRegister condition))) ↔
      ValueSurvives inst condition value state := by
  have accesses := setValue_memory_accesses destination noOverride evaluated
    unchanged pc
  obtain ⟨registers, memory⟩ := setValue_memory_apply destination noOverride
    evaluated unchanged pc
  have stored : [Access.store (inst.accessedAddress (.mem .byte base) state) 1
      ((storedValue inst condition (.mem .byte base) value state).toNat %
        256)] = inst.byteAccesses value state ↔
          ValueSurvives inst condition value state := by
    rw [byteAccesses, destination, ValueSurvives, destination]
    simp only [List.cons.injEq, Access.store.injEq, and_true, true_and]
    rw [noOverride.guestAddress, accessedAddress_eq_iff, storedValue_iff]
    rfl
  rw [← stored]
  constructor
  · intro writes
    exact accesses.symm.trans writes.accesses
  · intro same
    have survives := stored.mp same
    rw [ValueSurvives, destination] at survives
    refine ⟨accesses.trans same, fun reg => ?_, fun address outside => ?_⟩
    · rw [registers, destination]
      rfl
    · have target := (inst.accessedAddress_eq_iff (.mem .byte base) state).mpr
        survives.1
      have low := (storedValue_iff (.mem .byte base)).mpr survives.2
      rw [memory, writtenByte, destination]
      simp only [noOverride.guestAddress, target]
      apply store_bytes_congr (unchanged.memory address outside)
      rw [← BitVec.toNat_inj, BitVec.toNat_setWidth, BitVec.toNat_setWidth]
      refine low.trans ?_
      cases value <;> rfl

end MemoryDestination

/-! ## Conditional sets -/

section Sets

variable {inst : Instruction}

theorem generate_eq (condition : Condition) :
    generate inst condition =
      (evaluate condition).1 ++ setValue inst (valueRegister condition) := by
  cases condition <;> rfl

/-- The write of the value decides about the whole code. -/
theorem generate_evaluates
    (condition : Condition)
    {runtime : JumpTable.Runtime}
    {env : Environment}
    (permits : env.PermitsEverything)
    {state : State}
    (aligned : TableAligned state)
    {flags : Flag -> Bool}
    (lazyFlags : LazyFlags runtime state flags)
    (straight : ∀ written ∈ setValue inst (valueRegister condition),
      written.isStraight = true) :
    ∃ pc middle,
      middle.get (valueRegister condition) = bit (condition.holds flags) ∧
        Unchanged jumpScratch state middle ∧
        (inst.SetsByte (JumpTable.dispatch runtime env)
            (generate inst condition) (condition.holds flags) state ↔
          inst.WritesByte (condition.holds flags) state
            (accessesApart contextAddress
              (Environment.straightTrace pc middle
                (setValue inst (valueRegister condition))))
            (applyAll pc middle
              (setValue inst (valueRegister condition)))) := by
  obtain ⟨middle, exits, evaluated, unchanged⟩ :=
    evaluate_ends permits aligned lazyFlags condition
  have dispatched : (JumpTable.dispatch runtime env).PermitsEverything :=
    permits
  let later := (JumpTable.dispatch runtime env).shift
    (evaluate condition).1.length
  refine ⟨later.origin, middle, evaluated, unchanged, ?_⟩
  rw [generate_eq]
  exact setsByte_iff_of_exits dispatched exits (evaluate_hidden condition)
    straight

/-- The code of a conditional set writes one byte to its destination, which is
the value of the condition on the flags, and changes nothing else, if and only
if the value is not lost in front of the write. -/
theorem generate_setsByte_iff
    (destination : inst.ByteDestination)
    (noOverride : inst.NoOverride)
    (condition : Condition)
    {runtime : JumpTable.Runtime}
    {env : Environment}
    (permits : env.PermitsEverything)
    {state : State}
    (aligned : TableAligned state)
    {flags : Flag -> Bool}
    (lazyFlags : LazyFlags runtime state flags) :
    inst.SetsByte (JumpTable.dispatch runtime env) (generate inst condition)
        (condition.holds flags) state ↔
      ValueSurvives inst condition (condition.holds flags) state := by
  obtain ⟨size, rm⟩ := destination
  have whole := @generate_evaluates inst condition runtime env permits state
    aligned flags lazyFlags
  cases operand : inst.getOperand 0 with
  | none => rw [operand] at rm; cases rm
  | imm immSize => rw [operand] at rm; cases rm
  | reg regSize register type =>
      rw [operand] at size
      cases size
      have straight : ∀ written ∈ setValue inst (valueRegister condition),
          written.isStraight = true := by
        rw [setValue_register operand]
        exact (moveToRegister_computesInto _ _).straight
      obtain ⟨pc, middle, evaluated, unchanged, sets⟩ := whole straight
      exact sets.trans
        (setValue_register_writes_iff operand evaluated unchanged pc)
  | mem memSize base =>
      rw [operand] at size
      cases size
      have straight : ∀ written ∈ setValue inst (valueRegister condition),
          written.isStraight = true := by
        rw [setValue, operand]
        exact inst.writeToMemory_straight _ _ _ _
      obtain ⟨pc, middle, evaluated, unchanged, sets⟩ := whole straight
      exact sets.trans (setValue_memory_writes_iff operand noOverride
        evaluated unchanged pc)

end Sets

/-- `setz ah` -/
def setzAh : Instruction :=
  (InstructionClass.setcc .z).construct
    { type := .setz, operands := [.reg .byte 4 .gph] }

/-- The condition holds, and the high byte was another one before. -/
theorem generate_setsByte_iff_setzAh :
    setzAh.SetsByte (JumpTable.dispatch (fun _ _ => none) Stub.environment)
      (generate setzAh .z) true (clearState.set (mapReg 0) 0x1234) := by
  have lazyFlags : LazyFlags (fun _ _ => none)
      (clearState.set (mapReg 0) 0x1234) zeroFlags :=
    { zero := by decide +kernel
      sign := by decide +kernel
      parity := by decide +kernel
      carry := ⟨.carryClear, by decide +kernel, Or.inl rfl⟩
      overflow := ⟨.overflowClear, by decide +kernel, Or.inl rfl⟩ }
  exact (generate_setsByte_iff ⟨rfl, rfl⟩ ⟨by decide, by decide⟩ .z
    (fun _ _ => rfl) (by decide) lazyFlags).mpr fun lost => by cases lost

/-- `setbe ah` -/
def setbeAh : Instruction :=
  (InstructionClass.setcc .be).construct
    { type := .setbe, operands := [.reg .byte 4 .gph] }

/-- The condition holds and the high byte is zero before: it stays zero. -/
theorem setbeAh_loses :
    ¬ setbeAh.SetsByte (JumpTable.dispatch (fun _ _ => none) Stub.environment)
      (generate setbeAh .be) (Condition.be.holds zeroFlags) clearState := by
  obtain ⟨pc, middle, evaluated, unchanged, sets⟩ :=
    @generate_evaluates setbeAh .be (fun _ _ => none) Stub.environment
      (fun _ _ => rfl) clearState (by decide) zeroFlags clearState_lazyFlags
      (by decide)
  rw [sets, setValue_register_writes_iff rfl evaluated unchanged pc]
  intro survives
  exact absurd (survives rfl) (by decide)

end Setcc

end Oxtra

import Oxtra.Instruction.WriteBacks
import Oxtra.Instructions.Addition
import Oxtra.Instructions.ConditionalJumps
import Oxtra.Instructions.ImmediateShifts
import Oxtra.Instructions.UnaryOperations

/-!
# Operations on the memory

The operations on two operands and on one load an operand in the memory and
store their result.  The store goes to where the load has been, unless a segment
is added to the address once more.
-/

namespace Oxtra

open RiscV
open Encoding
open Helper
open FlagInfo
open Instruction
open Fadec (Operand OperandSize)

/-- An operation that reads its destination and writes it. -/
inductive Modification where
  | binary (operation : BinaryOperation)
  | unary (operation : UnaryOperation)

/-! ## Operands -/

namespace Instruction

variable (inst : Instruction)

/-- The second operand, as the word that the code operates on. -/
def sourceWord (state : State) : Word :=
  match inst.getOperand 1 with
  | .reg _ register .gph => state.get (mapRegHigh register) >>> 8
  | .reg _ register .gpl => state.get (mapReg register)
  | .imm size =>
      if inst.smallImmediate then
        inst.immediate
      else
        inst.maskedImmediate size false false
  | _ => 0

/-- The second operand is a register or an immediate of the same size. -/
structure SourceOperand : Prop where
  valued : (inst.getOperand 1).isReg = true ∨ (inst.getOperand 1).isImm = true
  valid : (inst.getOperand 1).valid = true
  sameSize : (inst.getOperand 1).size = (inst.getOperand 0).size

/-- The second operand is an immediate of one byte. -/
structure ShiftImmediate : Prop where
  isImm : (inst.getOperand 1).isImm = true
  short : (inst.immediate.setWidth 8).signExtend 64 = inst.immediate

end Instruction

namespace Modification

/-- Shifts have an immediate as their second operand, and the operations on one
operand have none. -/
def Source (inst : Instruction) : Modification -> Prop
  | binary .shl | binary .shr | binary .sar => inst.ShiftImmediate
  | binary _ => inst.SourceOperand
  | unary _ => True

/-- The destination is in the memory. -/
structure Operands (modification : Modification) (inst : Instruction) :
    Prop where
  isMem : ∃ base, inst.getOperand 0 = .mem inst.destinationSize base
  source : modification.Source inst

/-! ## Results -/

section Results

variable (inst : Instruction) (carry : Bool) (state : State)

/-- The result on x86. -/
def result : Modification -> BitVec inst.destinationSize.bits
  | binary .add => inst.firstBits state + inst.secondBits state
  | binary .adc => addition (inst.firstBits state) (inst.secondBits state) carry
  | binary .sub => inst.firstBits state - inst.secondBits state
  | binary .and => inst.firstBits state &&& inst.secondBits state
  | binary .or => inst.firstBits state ||| inst.secondBits state
  | binary .xor => inst.firstBits state ^^^ inst.secondBits state
  | binary .shl => ShiftDirection.left.result (inst.firstBits state)
      inst.shiftCount
  | binary .shr => ShiftDirection.right.result (inst.firstBits state)
      inst.shiftCount
  | binary .sar => ShiftDirection.arithmeticRight.result (inst.firstBits state)
      inst.shiftCount
  | unary operation => operation.result (inst.firstBits state)

/-- What the code computes from a loaded word. -/
def wordOf (loaded : Word) : Modification -> Word
  | binary operation => operation.word loaded (inst.sourceWord state) carry
  | unary operation => operation.word loaded

/-- What the code computes from the operands as words. -/
def word : Modification -> Word :=
  wordOf inst carry state (inst.loadedWord state)

/-- A shift of the word is one of the operand. -/
def ShiftFits : Modification -> Prop
  | binary .shl => inst.ShiftAgrees .left state
  | binary .shr => inst.ShiftAgrees .right state
  | binary .sar => inst.ShiftAgrees .arithmeticRight state
  | _ => True

end Results

section Word

variable {modification : Modification} {inst : Instruction}

/-- The source is loaded as a word. -/
theorem sourceWord_loaded
    (valued : (inst.getOperand 1).isReg = true ∨
      (inst.getOperand 1).isImm = true)
    (noImmediate : inst.immediateSource = false)
    (pc : Word)
    (state : State) :
    (applyAll pc state inst.translateSource.code).get
        inst.translateSource.value =
      inst.sourceWord state := by
  obtain ⟨eight, -, -, -, -⟩ := shift_amounts
  have nonzero : Register.t2 ≠ .zero := by decide
  rw [inst.translateSource_register noImmediate]
  rw [immediateSource] at noImmediate
  unfold sourceWord
  cases operand : inst.getOperand 1 with
  | reg size register type =>
      cases type with
      | gpl =>
          cases size <;> rfl
      | gph =>
          have load : inst.translateOperand (.reg size register .gph) .t2 .t3
              false false false false =
                { code := [srli .t2 (mapRegHigh register) 8], value := .t2 } :=
            by cases size <;> rfl
          simp only [load, applyAll_cons, applyAll_nil, apply_srli,
            State.set_get_self _ _ nonzero, eight]
  | imm size =>
      rw [operand] at noImmediate
      have large : inst.smallImmediate = false := by
        simpa [Operand.isImm] using noImmediate
      simp only [translateOperand, applyAll_loadImmediate nonzero,
        State.set_get_self _ _ nonzero, large, Bool.false_eq_true, if_false]
  | _ => simp [operand, Operand.isReg, Operand.isImm] at valued

theorem sourceWord_immediate
    (isImm : (inst.getOperand 1).isImm = true)
    (small : inst.smallImmediate = true)
    (state : State) :
    inst.sourceWord state = inst.immediate := by
  unfold sourceWord
  cases operand : inst.getOperand 1 with
  | imm size => exact if_pos small
  | _ =>
      rw [operand] at isImm
      cases isImm

theorem sourceWord_setWidth
    (source : inst.SourceOperand)
    (state : State) :
    (inst.sourceWord state).setWidth inst.destinationSize.bits =
      inst.secondBits state := by
  by_cases immediate : inst.immediateSource = true
  · obtain ⟨isImm, small⟩ := Bool.and_eq_true_iff.mp immediate
    rw [sourceWord_immediate isImm small, inst.secondBits_immediate isImm]
  · have noImmediate : inst.immediateSource = false := by
      simpa using immediate
    have loaded := inst.translateOperand_value 0 state source.valued
      source.valid (by decide : Register.t2 ≠ .zero) .t3 false false
    rw [← sourceWord_loaded source.valued noImmediate 0 state,
      inst.translateSource_register noImmediate]
    rw [source.sameSize] at loaded
    exact loaded

/-- The bits of the word are those of the result, unless a shift of the word is
another one. -/
theorem word_eq_iff
    (operands : modification.Operands inst)
    (carry : Bool)
    (state : State) :
    (modification.word inst carry state).setWidth inst.destinationSize.bits =
        modification.result inst carry state ↔
      modification.ShiftFits inst state := by
  obtain ⟨base, isMem⟩ := operands.isMem
  have first := inst.firstBits_memory isMem state
  have narrow := inst.destinationSize.bits_le
  have shifts (direction : ShiftDirection)
      (immediate : inst.ShiftImmediate) :
      ((BinaryOperation.ofShift direction).word (inst.loadedWord state)
            (inst.sourceWord state) carry).setWidth inst.destinationSize.bits =
          direction.result (inst.firstBits state) inst.shiftCount ↔
        inst.ShiftAgrees direction state := by
    rw [BinaryOperation.word_ofShift, first, sourceWord_immediate
      immediate.isImm (smallImmediate_of_short immediate.short)]
    exact direction.setWidth_result_iff narrow
      (shiftAmount_reduced inst.destinationSize inst.immediate)
  cases modification with
  | unary operation =>
      refine iff_of_true ?_ trivial
      rw [word, wordOf, operation.setWidth_word, result, first]
  | binary operation =>
      cases operation with
      | shl => exact shifts .left operands.source
      | shr => exact shifts .right operands.source
      | sar => exact shifts .arithmeticRight operands.source
      | add =>
          refine iff_of_true ?_ trivial
          rw [word, wordOf, BinaryOperation.word, BitVec.setWidth_add _ _ narrow,
            sourceWord_setWidth operands.source, result, first]
      | adc =>
          refine iff_of_true ?_ trivial
          rw [word, wordOf, BinaryOperation.word, BitVec.setWidth_add _ _ narrow,
            BitVec.setWidth_add _ _ narrow, bit_setWidth,
            sourceWord_setWidth operands.source, result, first, addition]
      | sub =>
          refine iff_of_true ?_ trivial
          rw [word, wordOf, BinaryOperation.word, setWidth_sub,
            sourceWord_setWidth operands.source, result, first]
      | and =>
          refine iff_of_true ?_ trivial
          rw [word, wordOf, BinaryOperation.word, BitVec.setWidth_and,
            sourceWord_setWidth operands.source, result, first]
      | or =>
          refine iff_of_true ?_ trivial
          rw [word, wordOf, BinaryOperation.word, BitVec.setWidth_or,
            sourceWord_setWidth operands.source, result, first]
      | xor =>
          refine iff_of_true ?_ trivial
          rw [word, wordOf, BinaryOperation.word, BitVec.setWidth_xor,
            sourceWord_setWidth operands.source, result, first]

end Word

/-! ## The code of the operations -/

section Code

variable (symbols : HostSymbols) (inst : Instruction)

/-- `generate` of the class of the operation. -/
def generate : Modification -> List Inst
  | binary operation => operation.generate symbols inst
  | unary operation => operation.generate inst

/-- The code in front of the load of the destination. -/
def sourceCode : Modification -> List Inst
  | binary _ => inst.translateSource.code
  | unary _ => []

/-- `execute_operation` of the operation. -/
def execute : Modification -> List Inst
  | binary operation => operation.execute symbols inst
  | unary operation => operation.execute inst .t0

/-- The temporary for the update of the sign. -/
def signTemp : Modification -> Register
  | binary _ => .t3
  | unary _ => .t2

theorem signTemp_spec (modification : Modification) :
    [modification.signTemp] ⊆ modificationScratch ∧
      Register.t0 ∉ [modification.signTemp] := by
  cases modification with
  | binary operation => rw [signTemp]; decide
  | unary operation => rw [signTemp]; decide

variable {inst} {modification : Modification}

theorem generate_eq (operands : modification.Operands inst) :
    modification.generate symbols inst =
      modifyOperand inst (inst.getOperand 0) (modification.sourceCode inst)
        (modification.execute symbols inst ++
          inst.resultUpdates .t0 inst.destinationSize
            modification.signTemp) := by
  obtain ⟨base, isMem⟩ := operands.isMem
  cases modification with
  | binary operation =>
      simp only [generate, BinaryOperation.generate, modifyOperand, sourceCode,
        execute, BinaryOperation.execute, workRegister, destinationRegister,
        signTemp, resultUpdates, translateOperand, translateDestination, isMem,
        List.append_assoc]
  | unary operation =>
      simp only [generate, UnaryOperation.generate, modifyOperand, sourceCode,
        execute, signTemp, resultUpdates, translateOperand,
        translateDestination, isMem, List.append_assoc, List.nil_append]

theorem Operands.valued
    {operation : BinaryOperation}
    (operands : (binary operation).Operands inst) :
    (inst.getOperand 1).isReg = true ∨ (inst.getOperand 1).isImm = true := by
  have source := operands.source
  cases operation with
  | shl | shr | sar => exact Or.inr source.isImm
  | add | adc | sub | and | or | xor => exact source.valued

theorem sourceCode_computesInto (operands : modification.Operands inst) :
    ComputesInto [.t2] (modification.sourceCode inst) := by
  cases modification with
  | unary operation => exact ComputesInto.nil
  | binary operation =>
      exact inst.translateSource_computesInto operands.valued

/-- A source in a register is in none that is changed behind it. -/
theorem sourceRegister_ne
    (valued : (inst.getOperand 1).isReg = true ∨
      (inst.getOperand 1).isImm = true)
    (noImmediate : inst.immediateSource = false)
    {register : Register}
    (changed : register ∈ [.zero, .t0, .t1, .t3, .t4, .t5, .t6, .ra]) :
    inst.translateSource.value ≠ register := by
  rcases inst.translateSource_location valued noImmediate with
    temporary | guest
  · rw [temporary]
    rintro rfl
    exact absurd changed (by decide)
  · have free : ∀ register ∈ [Register.zero, .t0, .t1, .t3, .t4, .t5, .t6, .ra],
        isGuest register = false := by decide
    exact ne_of_isGuest guest (free _ changed)

end Code

/-! ## Loaded operands -/

section Loads

variable {modification : Modification} {inst : Instruction}

/-- A state behind the loads of the operands. -/
structure Loaded
    (modification : Modification)
    (inst : Instruction)
    (value : Word)
    (state loaded : State) : Prop where
  others : ∀ register, register ∉ [.t0, .t1, .t2] ->
    loaded.get register = state.get register
  mem : loaded.mem = state.mem
  value : loaded.get .t0 = value
  source : ∀ operation, modification = binary operation ->
    inst.immediateSource = false ->
      loaded.get inst.translateSource.value = inst.sourceWord state

theorem loaded
    (operands : modification.Operands inst)
    (pc : Word)
    (state : State) :
    modification.Loaded inst
      (state.mem.load
        (inst.accessedAddress (inst.getOperand 0) state +
          inst.segmentBase state)
        inst.destinationSize.bytes)
      state
      (applyAll pc state (modification.sourceCode inst ++
        (inst.readFromMemory (inst.getOperand 0) .t0 .t1 false).1)) := by
  have computes := sourceCode_computesInto operands
  have nonzero : Register.t0 ≠ .zero := by decide
  have kept : ∀ register, register ≠ .t0 -> register ≠ .t1 ->
      (applyAll pc state (modification.sourceCode inst ++
        (inst.readFromMemory (inst.getOperand 0) .t0 .t1 false).1)).get
          register =
        (applyAll pc state (modification.sourceCode inst)).get register := by
    intro register notLoaded notAddress
    rw [loaded_eq computes, State.set_get_of_ne _ _ notLoaded,
      inst.readBase_get _ _ _ _ notLoaded notAddress]
  refine ⟨?_, ?_, ?_, ?_⟩
  · intro register outside
    simp only [List.mem_cons, List.not_mem_nil, or_false, not_or] at outside
    rw [kept _ outside.1 outside.2.1, computes.get _ _ (by simp [outside])]
  · rw [loaded_eq computes, State.set_mem, inst.readBase_mem, computes.mem]
  · rw [loaded_eq computes, State.set_get_self _ _ nonzero]
    rfl
  · rintro operation rfl noImmediate
    have valued := operands.valued
    rw [kept _ (sourceRegister_ne valued noImmediate (by decide))
      (sourceRegister_ne valued noImmediate (by decide))]
    exact sourceWord_loaded valued noImmediate pc state

end Loads

/-! ## Execution -/

/-- The operation has left a word in place of the operand, and has kept what it
shares with the store. -/
structure Executed (word : Word) (loaded after : State) : Prop where
  registers : ∀ register, register ∉ modificationScratch ->
    after.get register = loaded.get register
  value : after.get .t0 = word
  memory : ∀ address,
    Field.limit ≤ (address - loaded.get contextAddress).toNat ->
      after.mem address = loaded.mem address

section Executed

variable {word : Word} {loaded after : State} {temps : List Register}
variable {code : List Inst}

theorem executed_of_updates
    (updates : UpdatesFields temps code)
    (subset : temps ⊆ modificationScratch)
    {pc : Word}
    (value : (applyAll pc loaded code).get .t0 = word) :
    Executed word loaded (applyAll pc loaded code) where
  registers _ outside := updates.get _ _ fun member => outside (subset member)
  value := value
  memory address behind := by
    have context : contextAddress ∉ temps := fun member =>
      absurd (subset member) (by decide)
    exact updates.mem (by decide) context pc loaded (by omega)

/-- The updates of the flags keep the word. -/
theorem Executed.append
    (executed : Executed word loaded after)
    (updates : UpdatesFields temps code)
    (subset : temps ⊆ modificationScratch)
    (notResult : .t0 ∉ temps)
    (pc : Word) :
    Executed word loaded (applyAll pc after code) := by
  have further := executed_of_updates updates subset
    ((updates.get pc after notResult).trans executed.value)
  have context := executed.registers contextAddress (by decide)
  refine ⟨?_, further.value, ?_⟩
  · intro register outside
    rw [further.registers _ outside, executed.registers _ outside]
  · intro address behind
    rw [further.memory _ (by rwa [context]), executed.memory _ behind]

/-- The base of the segment is behind the fields. -/
theorem Executed.segmentBase
    (executed : Executed word loaded after)
    (inst : Instruction) :
    inst.segmentBase after = inst.segmentBase loaded := by
  have context := executed.registers contextAddress (by decide)
  by_cases none : inst.segmentOffset = 0
  · rw [Instruction.segmentBase, Instruction.segmentBase, if_pos none,
      if_pos none]
  · have behind : Field.limit ≤ (signedImm inst.segmentOffset).toNat ∧
        (signedImm inst.segmentOffset).toNat < 0x1000 := by
      unfold segmentOffset at none ⊢
      cases segment : inst.segment with
      | fs | gs => decide
      | none | es | cs | ss | ds =>
          rw [segment] at none
          exact absurd rfl none
    rw [Instruction.segmentBase, Instruction.segmentBase, if_neg none,
      if_neg none, context]
    apply Memory.load_congr
    intro index inside
    apply executed.memory
    rw [add_assoc, add_sub_cancel_left, BitVec.toNat_add,
      BitVec.toNat_ofNat, Nat.mod_eq_of_lt (by omega), Nat.mod_eq_of_lt]
    all_goals omega

end Executed

/-- The carry flag that `ADC` adds: its evaluation ends with it, whatever is
left in the temporaries of the loads. -/
def AddsCarry
    (runtime : JumpTable.Runtime)
    (carry : Bool)
    (state : State) : Modification -> Prop
  | binary .adc => ∀ (later : Environment) (loaded : State),
      later.PermitsEverything -> loaded.mem = state.mem ->
        (∀ register, register ∉ [.t0, .t1, .t2, .t3] ->
          loaded.get register = state.get register) ->
        EndsWith (JumpTable.dispatch runtime later) evaluateCarry
          evaluationScratch loaded .t4 carry
  | _ => True

/-- A carry flag that a routine of the table evaluates is one that is added. -/
theorem addsCarry_of_carryIn
    {runtime : JumpTable.Runtime}
    {carry : Bool}
    {state : State}
    (aligned : TableAligned state)
    (carryIn : CarryIn .adc state carry) :
    (binary .adc).AddsCarry runtime carry state := by
  intro later loaded permits mem others
  have sameTable := others jumpTableAddress (by decide)
  have alignedLoaded : TableAligned loaded := by
    rw [TableAligned, sameTable]
    exact aligned
  exact endsWith_of_evaluates (carryIn.evaluates permits alignedLoaded
    (fields_congr mem (others _ (by decide))))

section Execute

variable {modification : Modification} {inst : Instruction}
variable {runtime : JumpTable.Runtime} {env : Environment}
variable {state loaded : State} {value : Word} {carry : Bool}

theorem workRegister_memory
    (operands : modification.Operands inst) : inst.workRegister = .t0 := by
  obtain ⟨base, isMem⟩ := operands.isMem
  rw [workRegister, isMem]
  rfl

/-- An operation without a carry is straight code. -/
theorem execute_executed
    (symbols : HostSymbols)
    (operands : modification.Operands inst)
    (withoutCarry : modification ≠ binary .adc)
    (load : modification.Loaded inst value state loaded)
    (pc : Word) :
    UpdatesFields [.t0, .t4] (modification.execute symbols inst) ∧
      Executed (modification.wordOf inst carry state value) loaded
        (applyAll pc loaded (modification.execute symbols inst)) := by
  have scratch : Scratch .t0 := by decide
  have notTemp : Register.t0 ≠ .t4 := by decide
  have subset : [Register.t0, .t4] ⊆ modificationScratch := by decide
  cases modification with
  | unary operation =>
      have updates := @UnaryOperation.execute_updates inst .t0 operation
      refine ⟨updates, executed_of_updates updates subset ?_⟩
      rw [operation.execute_value scratch notTemp, wordOf, load.value]
  | binary operation =>
      have notAdc : operation ≠ .adc := fun same =>
        withoutCarry (congrArg binary same)
      have anyCarry : operation.word value (inst.sourceWord state) carry =
          operation.word value (inst.sourceWord state) false := by
        cases operation with
        | adc => exact absurd rfl notAdc
        | _ => rfl
      have work := workRegister_memory operands
      rw [execute, BinaryOperation.execute, work, wordOf, anyCarry]
      by_cases immediate : inst.immediateSource = true
      · obtain ⟨isImm, small⟩ := Bool.and_eq_true_iff.mp immediate
        have zero : inst.translateSource.value = .zero := by
          rw [inst.translateSource_immediate immediate]
        have updates := @operation.executeImmediate_updates symbols inst .t0
          notAdc inst.immediate
        rw [if_neg (not_not_intro zero)]
        refine ⟨updates, executed_of_updates updates subset ?_⟩
        rw [operation.executeImmediate_value symbols inst notTemp scratch.1
          notAdc small, load.value, sourceWord_immediate isImm small]
      · have noImmediate : inst.immediateSource = false := by
          simpa using immediate
        have valued := operands.valued
        have updates := @operation.executeRegister_updates symbols inst .t0
          notAdc inst.translateSource.value
        rw [if_pos (sourceRegister_ne valued noImmediate (by decide))]
        refine ⟨updates, executed_of_updates updates subset ?_⟩
        rw [operation.executeRegister_value symbols inst notTemp scratch.1
          notAdc (sourceRegister_ne valued noImmediate (by decide)),
          load.value, load.source operation rfl noImmediate]

/-- The addition of a register behind the evaluation of the carry flag. -/
theorem adcRegister_executed
    (permits : env.PermitsEverything)
    {src : Register}
    (srcKept : src ∉ evaluationScratch)
    (evaluates : EndsWith (JumpTable.dispatch runtime env) evaluateCarry
      evaluationScratch loaded .t4 carry) :
    ∃ after,
      (JumpTable.dispatch runtime env).Exits (Adc.executeRegister inst .t0 src)
          loaded (.ended after) ∧
        Executed (loaded.get .t0 + loaded.get src + bit carry) loaded
          after := by
  obtain ⟨evaluated, exits, flag, unchanged⟩ := evaluates
  let further := env.shift evaluateCarry.length
  have permitsFurther :
      (JumpTable.dispatch runtime further).PermitsEverything := permits
  have updates := @Adc.addEvaluated_updates inst .t0 src
  have subset : [Register.t0, .t4, .t5, .t6] ⊆ modificationScratch := by
    decide
  have srcNotScratch : src ∉ [.t4, .t5, .t6] := fun member =>
    srcKept ((by decide : [Register.t4, .t5, .t6] ⊆ evaluationScratch) member)
  have value := @Adc.addEvaluated_value inst .t0 src further.origin evaluated
    (by decide) (by decide) srcNotScratch
  rw [flag, unchanged.registers .t0 (by decide),
    unchanged.registers src srcKept] at value
  have added := executed_of_updates updates subset value
  have context := unchanged.registers contextAddress (by decide)
  refine ⟨applyAll further.origin evaluated
    (Adc.addEvaluated inst .t0 src), ?_, ?_, added.value, ?_⟩
  · rw [Adc.executeRegister_eq]
    exact exits.append (Environment.exits_straight updates.straight
      (permitsFurther.permitsAll _ _)) (by simp)
  · intro register outside
    rw [added.registers _ outside, unchanged.registers _ fun member =>
      outside ((by decide : evaluationScratch ⊆ modificationScratch) member)]
  · intro address behind
    have saved : savedBytes ≤ Field.limit := by decide
    rw [added.memory _ (by rwa [context]),
      unchanged.memory _ (saved.trans behind)]

theorem adc_executed
    (symbols : HostSymbols)
    (operands : (binary .adc).Operands inst)
    (permits : env.PermitsEverything)
    (carries : (binary .adc).AddsCarry runtime carry state)
    (load : (binary .adc).Loaded inst value state loaded) :
    ∃ after,
      (JumpTable.dispatch runtime env).Exits
          ((binary .adc).execute symbols inst) loaded (.ended after) ∧
        Executed ((binary .adc).wordOf inst carry state value) loaded
          after := by
  have work := workRegister_memory operands
  have valued := operands.valued
  have others : ∀ register, register ∉ [.t0, .t1, .t2, .t3] ->
      loaded.get register = state.get register := fun register outside =>
    load.others _ (by
      simp only [List.mem_cons, List.not_mem_nil, or_false,
        not_or] at outside ⊢
      simp [outside])
  rw [execute, BinaryOperation.execute, work]
  by_cases immediate : inst.immediateSource = true
  · obtain ⟨isImm, small⟩ := Bool.and_eq_true_iff.mp immediate
    have zero : inst.translateSource.value = .zero := by
      rw [inst.translateSource_immediate immediate]
    let started := loaded.set .t3 inst.immediate
    have starts : (JumpTable.dispatch runtime env).Exits
        [addi .t3 .zero (inst.immediate.setWidth 16)] loaded
        (.ended started) := by
      have permitsHere : (JumpTable.dispatch runtime env).PermitsEverything :=
        permits
      have loads : ComputesInto [.t3]
          [addi .t3 .zero (inst.immediate.setWidth 16)] :=
        ComputesInto.singleton rfl rfl (by simp)
      have exits := @Environment.exits_straight
        (JumpTable.dispatch runtime env) loaded _ loads.straight
        (permitsHere.permitsAll _ _)
      rwa [applyAll_cons, applyAll_nil, apply_addi, State.get_zero, zero_add,
        signedImm_setWidth _ (by decide : 12 ≤ 16),
        inst.signedImm_immediate small] at exits
    have kept : ∀ register, register ≠ .t3 ->
        started.get register = loaded.get register := fun register other =>
      State.set_get_of_ne _ _ other
    obtain ⟨after, exits, executed⟩ := @adcRegister_executed inst runtime
      (env.shift 1) started carry (permits.shift 1) .t3 (by decide)
      (carries (env.shift 1) started (permits.shift 1) load.mem
        fun register outside => by
          rw [kept _ (by rintro rfl; exact outside (by decide)),
            others _ outside])
    rw [if_neg (not_not_intro zero)]
    refine ⟨after, starts.append exits (by simp), ?_, ?_, ?_⟩
    · intro register outside
      rw [executed.registers _ outside, kept]
      rintro rfl
      exact outside (by decide)
    · rw [executed.value, kept .t0 (by decide), load.value,
        State.set_get_self _ _ (by decide), wordOf,
        sourceWord_immediate isImm small]
      rfl
    · intro address behind
      rw [executed.memory _ (by rwa [kept _ (by decide)])]
      rfl
  · have noImmediate : inst.immediateSource = false := by
      simpa using immediate
    have srcKept : inst.translateSource.value ∉ evaluationScratch := by
      intro member
      refine sourceRegister_ne valued noImmediate ?_ rfl
      exact (by decide : evaluationScratch ⊆
        [.zero, .t0, .t1, .t3, .t4, .t5, .t6, .ra]) member
    obtain ⟨after, exits, executed⟩ := @adcRegister_executed inst runtime env
      loaded carry permits _ srcKept (carries env loaded permits load.mem
        others)
    rw [load.value, load.source .adc rfl noImmediate] at executed
    rw [if_pos (sourceRegister_ne valued noImmediate (by decide))]
    exact ⟨after, exits, executed⟩

/-- Every operation runs to its end. -/
theorem execute_ends
    (symbols : HostSymbols)
    (operands : modification.Operands inst)
    (permits : env.PermitsEverything)
    (carries : modification.AddsCarry runtime carry state)
    (load : modification.Loaded inst value state loaded) :
    ∃ after,
      (JumpTable.dispatch runtime env).Exits
          (modification.execute symbols inst) loaded (.ended after) ∧
        Executed (modification.wordOf inst carry state value) loaded
          after := by
  by_cases withCarry : modification = binary .adc
  · subst withCarry
    exact adc_executed symbols operands permits carries load
  · obtain ⟨updates, executed⟩ := @execute_executed modification inst state
      loaded value carry symbols operands withCarry load env.origin
    have permitsHere : (JumpTable.dispatch runtime env).PermitsEverything :=
      permits
    exact ⟨_, Environment.exits_straight updates.straight
      (permitsHere.permitsAll _ _), executed⟩

/-- The operation accesses nothing but the fields. -/
theorem execute_hidden
    (symbols : HostSymbols)
    (modification : Modification)
    (inst : Instruction) :
    ∀ written ∈ modification.execute symbols inst,
      written.base = none ∨ written.base = some contextAddress := by
  have adds (src : Register) :
      ∀ written ∈ Adc.executeRegister inst inst.workRegister src,
        written.base = none ∨ written.base = some contextAddress := by
    have evaluation : ∀ written ∈ evaluateCarry,
        written.base = none ∨ written.base = some contextAddress := by
      decide
    intro written member
    rw [Adc.executeRegister_eq] at member
    rcases List.mem_append.mp member with evaluates | added
    · exact evaluation _ evaluates
    · exact (Adc.addEvaluated_updates inst).base_eq _ added
  intro written member
  cases modification with
  | unary operation =>
      exact (UnaryOperation.execute_updates inst operation).base_eq _ member
  | binary operation =>
      rw [execute, BinaryOperation.execute] at member
      by_cases withCarry : operation = .adc
      · subst withCarry
        split at member
        · exact adds _ written member
        · rcases List.mem_cons.mp member with rfl | added
          · exact Or.inl rfl
          · exact adds _ written added
      · split at member
        · exact (operation.executeRegister_updates symbols inst withCarry
            _).base_eq _ member
        · exact (operation.executeImmediate_updates symbols inst withCarry
            _).base_eq _ member

end Execute

/-! ## Writing back -/

/-- The code runs to its end.  It loads the destination from its effective
address, stores a value there, and accesses nothing else. -/
def WritesBack
    (env : Environment)
    (code : List Inst)
    (inst : Instruction)
    (value : Word)
    (state : State) : Prop :=
  ∃ visited final, env.Traces code state visited (.ended final) ∧
    accessesApart contextAddress visited = inst.modifyingAccesses value state

section WriteBack

variable {modification : Modification} {inst : Instruction}
variable {runtime : JumpTable.Runtime} {env : Environment}
variable {state : State} {carry : Bool}

/-- The accesses of an operation. -/
theorem generate_traces
    (symbols : HostSymbols)
    (operands : modification.Operands inst)
    (permits : env.PermitsEverything)
    (carries : modification.AddsCarry runtime carry state) :
    let op := inst.getOperand 0
    let target := inst.accessedAddress op state + inst.segmentBase state
    let word := modification.wordOf inst carry state
      (state.mem.load target inst.destinationSize.bytes)
    ∃ visited final,
      (JumpTable.dispatch runtime env).Traces
          (modification.generate symbols inst) state visited (.ended final) ∧
        accessesApart contextAddress visited =
          [.load target inst.destinationSize.bytes,
            .store (inst.writtenAddress op state word)
              inst.destinationSize.bytes
              (word.toNat % 256 ^ inst.destinationSize.bytes)] := by
  intro op target word
  let loading := modification.sourceCode inst ++
    (inst.readFromMemory op .t0 .t1 false).1
  have computes := sourceCode_computesInto operands
  have load := loaded operands env.origin state
  obtain ⟨after, exits, executed⟩ := @execute_ends modification inst runtime
    (env.shift loading.length) state _ _ carry symbols operands
    (permits.shift _) carries load
  have updates := inst.resultUpdates_updates .t0 inst.destinationSize
    modification.signTemp
  obtain ⟨subset, notResult⟩ := modification.signTemp_spec
  let last := (env.shift loading.length).shift
    (modification.execute symbols inst).length
  have permitsLast : (JumpTable.dispatch runtime last).PermitsEverything :=
    permits
  let changed := applyAll last.origin after
    (inst.resultUpdates .t0 inst.destinationSize modification.signTemp)
  have updated : Executed word (applyAll env.origin state loading) changed :=
    executed.append updates subset notResult last.origin
  have ends : (JumpTable.dispatch runtime (env.shift loading.length)).Exits
      (modification.execute symbols inst ++
        inst.resultUpdates .t0 inst.destinationSize modification.signTemp)
      (applyAll env.origin state loading) (.ended changed) :=
    exits.append (Environment.exits_straight updates.straight
      (permitsLast.permitsAll after _)) (by simp)
  have hidden : ∀ written ∈ modification.execute symbols inst ++
      inst.resultUpdates .t0 inst.destinationSize modification.signTemp,
        written.base = none ∨ written.base = some contextAddress := by
    intro written member
    rcases List.mem_append.mp member with execution | update
    · exact execute_hidden symbols modification inst _ execution
    · exact updates.base_eq _ update
  have segment : inst.segmentBase changed = inst.segmentBase state := by
    rw [updated.segmentBase inst, Instruction.segmentBase,
      Instruction.segmentBase, load.mem, load.others _ (by decide)]
  have size : op.size = inst.destinationSize := rfl
  have permitsHere : (JumpTable.dispatch runtime env).PermitsEverything :=
    permits
  obtain ⟨visited, final, traces, accesses⟩ := traces_modifyOperand computes
    permitsHere hidden ends updated.registers segment
  rw [updated.value, size] at accesses
  rw [generate_eq symbols operands]
  exact ⟨visited, final, traces, accesses⟩

/-- An operation writes its result back to where it has read the destination,
unless the address is longer than the address size, the base of a segment is
added again, or a shift is not one of the operand. -/
theorem generate_writesBack_iff
    (symbols : HostSymbols)
    (operands : modification.Operands inst)
    (permits : env.PermitsEverything)
    (carries : modification.AddsCarry runtime carry state) :
    WritesBack (JumpTable.dispatch runtime env)
        (modification.generate symbols inst) inst
        ((modification.result inst carry state).setWidth 64) state ↔
      inst.AddressFits (inst.getOperand 0) state ∧
        inst.KeepsAddress (inst.getOperand 0) state
          (modification.word inst carry state) ∧
        modification.ShiftFits inst state := by
  obtain ⟨base, isMem⟩ := operands.isMem
  obtain ⟨visited, final, traces, accesses⟩ :=
    @generate_traces modification inst runtime env state carry symbols operands
      permits carries
  let op := inst.getOperand 0
  let size := inst.destinationSize
  have guest : ∀ value, inst.modifyingAccesses value state =
      [.load (inst.guestAddress op state) size.bytes,
        .store (inst.guestAddress op state) size.bytes
          (value.toNat % 256 ^ size.bytes)] := by
    intro value
    simp only [modifyingAccesses, op, isMem]
    rfl
  have reached : inst.accessedAddress op state + inst.segmentBase state =
      inst.guestAddress op state ↔ inst.AddressFits op state := by
    rw [Instruction.guestAddress, add_right_cancel_iff]
    exact inst.accessedAddress_eq_iff op state
  have loadedWord : inst.loadedWord state =
      state.mem.load (inst.guestAddress op state) size.bytes := by
    simp only [Instruction.loadedWord, op, isMem]
    rfl
  have stored : ∀ word : Word,
      word.toNat % 256 ^ size.bytes =
          ((modification.result inst carry state).setWidth 64).toNat %
            256 ^ size.bytes ↔
        word.setWidth size.bits = modification.result inst carry state := by
    intro word
    rw [toNat_mod_eq_iff, setWidth_bits]
  rw [← word_eq_iff operands carry state, ← stored]
  constructor
  · rintro ⟨others, end', otherTraces, same⟩
    obtain ⟨rfl, -⟩ := otherTraces.unique traces
    rw [accesses, guest] at same
    simp only [List.cons.injEq, Access.load.injEq, Access.store.injEq,
      and_true] at same
    obtain ⟨⟨target, -⟩, written, -, low⟩ := same
    rw [target, ← loadedWord] at written low
    exact ⟨reached.mp target, (inst.writtenAddress_eq_iff op state _).mp
      (written.trans target.symm), low⟩
  · rintro ⟨fits, keeps, right⟩
    have target := reached.mpr fits
    have written := (inst.writtenAddress_eq_iff op state _).mpr keeps
    rw [target] at written
    refine ⟨visited, final, traces, ?_⟩
    rw [accesses, guest, target, ← loadedWord]
    exact congrArg₂ (fun address value =>
      [_, Access.store address size.bytes value]) written right

end WriteBack

/-- `add [rax], ecx` in a segment. -/
def addMemory (segment : Fadec.Segment) : Instruction :=
  (InstructionClass.binaryOperation .add).construct
    { type := .add
      operands := [.mem .dword (some 0), .reg .dword 1 .gpl]
      segment := segment }

theorem addMemory_operands (segment : Fadec.Segment) :
    (binary .add).Operands (addMemory segment) where
  isMem := ⟨some 0, rfl⟩
  source :=
    { valued := Or.inl rfl
      valid := rfl
      sameSize := rfl }

/-- The base of a segment is `0x100`, and rax is `0x1000`. -/
def segmentState : State :=
  (zeroState.store 0x248 8 0x100).set (mapReg 0) 0x1000

theorem generate_writesBack_iff_addMemory :
    WritesBack (JumpTable.dispatch (fun _ _ => none) Stub.environment)
        ((binary .add).generate sampleSymbols (addMemory .none))
        (addMemory .none)
        (((binary .add).result (addMemory .none) false
          segmentState).setWidth 64)
        segmentState ↔
      (addMemory .none).AddressFits ((addMemory .none).getOperand 0)
          segmentState ∧
        (addMemory .none).KeepsAddress ((addMemory .none).getOperand 0)
          segmentState ((binary .add).word (addMemory .none) false
            segmentState) ∧
        (binary .add).ShiftFits (addMemory .none) segmentState :=
  generate_writesBack_iff sampleSymbols (addMemory_operands .none)
    (fun _ _ => rfl) trivial

/-- The sum is stored `0x100` bytes behind the operand. -/
theorem addMemory_misses :
    ¬ WritesBack (JumpTable.dispatch (fun _ _ => none) Stub.environment)
      ((binary .add).generate sampleSymbols (addMemory .fs)) (addMemory .fs)
      (((binary .add).result (addMemory .fs) false segmentState).setWidth 64)
      segmentState := by
  rintro ⟨visited, final, traces, same⟩
  obtain ⟨others, ended, otherTraces, accesses⟩ :=
    @generate_traces (binary .add) (addMemory .fs) (fun _ _ => none)
      Stub.environment segmentState false sampleSymbols
      (addMemory_operands .fs) (fun _ _ => rfl) trivial
  obtain ⟨rfl, -⟩ := traces.unique otherTraces
  rw [accesses] at same
  revert same
  decide +kernel

end Modification
end Oxtra

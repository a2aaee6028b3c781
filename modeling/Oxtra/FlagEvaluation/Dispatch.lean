import Oxtra.FlagEvaluation.Evaluators

/-!
# Evaluation of the carry and the overflow flag

The code that an instruction emits to evaluate a flag jumps into the jump
table at the offset that the last update of the flag has stored.
-/

namespace Oxtra

open RiscV
open Encoding
open Wrapped
open FlagInfo

namespace JumpTable

/-! ## The table -/

/-- Routines of the runtime that do not evaluate a flag. -/
inductive Routine where
  | syscallHandler
  | rerouteStatic
  | rerouteDynamic
  | rerouteReturn
  | debugEntry
  | debugEntryRiscv
  | cWrapper
  | handleUnsupportedInstruction
  | unsupportedCarry
  | unsupportedOverflow
  | highLevelCarry
  | highLevelOverflow
  deriving DecidableEq, Repr

/-- Where a jump of the table goes. -/
inductive Destination where
  | routine (routine : Routine)
  | evaluator (stub : Stub)

/-- The jumps of the table in their order. -/
def tableAddress : List Destination :=
  [.routine .syscallHandler,
    .routine .rerouteStatic,
    .routine .rerouteDynamic,
    .routine .rerouteReturn,
    .routine .debugEntry,
    .routine .debugEntryRiscv,
    .routine .cWrapper,
    .routine .handleUnsupportedInstruction,
    .routine .unsupportedCarry,
    .routine .unsupportedOverflow,
    .routine .highLevelCarry,
    .routine .highLevelOverflow,
    .evaluator Stub.carryClear,
    .evaluator Stub.carrySet,
    .evaluator Stub.overflowClear,
    .evaluator Stub.overflowSet,
    .evaluator (Stub.carryAdd .byte),
    .evaluator (Stub.carryAdd .half),
    .evaluator (Stub.carryAdd .word),
    .evaluator (Stub.carryAdd .double),
    .evaluator (Stub.carryAdc .byte),
    .evaluator (Stub.carryAdc .half),
    .evaluator (Stub.carryAdc .word),
    .evaluator (Stub.carryAdc .double),
    .evaluator (Stub.carryNeg .byte),
    .evaluator (Stub.carryNeg .half),
    .evaluator (Stub.carryNeg .word),
    .evaluator (Stub.carryNeg .double),
    .evaluator (Stub.overflowAdd .byte),
    .evaluator (Stub.overflowAdd .half),
    .evaluator (Stub.overflowAdd .word),
    .evaluator (Stub.overflowAdd .double),
    .evaluator (Stub.overflowAdc .byte),
    .evaluator (Stub.overflowAdc .half),
    .evaluator (Stub.overflowAdc .word),
    .evaluator (Stub.overflowAdc .double),
    .evaluator (Stub.overflowAddPos .byte),
    .evaluator (Stub.overflowAddPos .half),
    .evaluator (Stub.overflowAddPos .word),
    .evaluator (Stub.overflowAddPos .double),
    .evaluator (Stub.overflowAddNeg .byte),
    .evaluator (Stub.overflowAddNeg .half),
    .evaluator (Stub.overflowAddNeg .word),
    .evaluator (Stub.overflowAddNeg .double),
    .evaluator (Stub.overflowSub .byte),
    .evaluator (Stub.overflowSub .half),
    .evaluator (Stub.overflowSub .word),
    .evaluator (Stub.overflowSub .double),
    .evaluator (Stub.overflowInc .byte),
    .evaluator (Stub.overflowInc .half),
    .evaluator (Stub.overflowInc .word),
    .evaluator (Stub.overflowInc .double),
    .evaluator (Stub.overflowDecNeg .byte),
    .evaluator (Stub.overflowDecNeg .half),
    .evaluator (Stub.overflowDecNeg .word),
    .evaluator (Stub.overflowDecNeg .double)]

/-- Where an entry is meant to go. -/
def Entry.destination : Entry -> Destination
  | virtualSyscall => .routine .syscallHandler
  | rerouteStatic => .routine .rerouteStatic
  | rerouteDynamic => .routine .rerouteDynamic
  | rerouteReturn => .routine .rerouteReturn
  | debugCallback => .routine .debugEntry
  | debugCallbackRiscv => .routine .debugEntryRiscv
  | cWrapper => .routine .cWrapper
  | unsupportedInstruction => .routine .handleUnsupportedInstruction
  | unsupportedCarry => .routine .unsupportedCarry
  | unsupportedOverflow => .routine .unsupportedOverflow
  | highLevelCarry => .routine .highLevelCarry
  | highLevelOverflow => .routine .highLevelOverflow
  | carryClear => .evaluator Stub.carryClear
  | carrySet => .evaluator Stub.carrySet
  | overflowClear => .evaluator Stub.overflowClear
  | overflowSet => .evaluator Stub.overflowSet
  | carryAdd width => .evaluator (Stub.carryAdd width)
  | carryAdc width => .evaluator (Stub.carryAdc width)
  | carryNeg width => .evaluator (Stub.carryNeg width)
  | overflowAdd width => .evaluator (Stub.overflowAdd width)
  | overflowAdc width => .evaluator (Stub.overflowAdc width)
  | overflowAddPos width => .evaluator (Stub.overflowAddPos width)
  | overflowAddNeg width => .evaluator (Stub.overflowAddNeg width)
  | overflowSub width => .evaluator (Stub.overflowSub width)
  | overflowInc width => .evaluator (Stub.overflowInc width)
  | overflowDecNeg width => .evaluator (Stub.overflowDecNeg width)

/-- The numbers of the entries correspond to the order of the table. -/
theorem tableAddress_number (entry : Entry) :
    tableAddress[entry.number.toNat]? = some entry.destination := by
  cases entry <;> first | rfl | (rename_i width; cases width <;> rfl)

/-! ## Calls -/

/-- What the other routines do: the state in which a call returns, if it
does. -/
abbrev Runtime := Routine -> State -> Option State

/-- A call of an address in the table, which starts at the address in the
register `s10`. -/
def call (runtime : Runtime) (target : Word) (state : State) : Option State :=
  let offset := (target - state.get Helper.jumpTableAddress).toNat
  if offset % 4 = 0 then
    match tableAddress[offset / 4]? with
    | some (.routine routine) => runtime routine state
    | some (.evaluator stub) => stub.run state
    | none => none
  else
    none

/-- Code whose calls go into the table. -/
def dispatch (runtime : Runtime) (env : Environment) : Environment :=
  { env with call := call runtime }

theorem dispatch_permits
    {env : Environment}
    (permits : env.PermitsEverything)
    (runtime : Runtime) :
    (dispatch runtime env).PermitsEverything :=
  fun inst state => permits inst state

theorem Entry.offset_toNat (entry : Entry) :
    entry.offset.toNat = 4 * entry.number.toNat := by
  cases entry <;> first | rfl | (rename_i width; cases width <;> rfl)

/-- All entries, in their order. -/
def Entry.listed : List Entry :=
  let widths := [.byte, .half, .word, .double]
  [virtualSyscall, rerouteStatic, rerouteDynamic, rerouteReturn, debugCallback,
    debugCallbackRiscv, cWrapper, unsupportedInstruction, unsupportedCarry,
    unsupportedOverflow, highLevelCarry, highLevelOverflow, carryClear,
    carrySet, overflowClear, overflowSet] ++
    widths.map carryAdd ++ widths.map carryAdc ++ widths.map carryNeg ++
    widths.map overflowAdd ++ widths.map overflowAdc ++
    widths.map overflowAddPos ++ widths.map overflowAddNeg ++
    widths.map overflowSub ++ widths.map overflowInc ++
    widths.map overflowDecNeg

theorem Entry.listed_number (entry : Entry) :
    listed[entry.number.toNat]? = some entry := by
  cases entry <;> first | rfl | (rename_i width; cases width <;> rfl)

/-- An entry is known from what is stored of it. -/
theorem Entry.eq_of_offset
    {first second : Entry}
    (same : first.offset.setWidth 64 = second.offset.setWidth 64) :
    first = second := by
  have offsets := congrArg BitVec.toNat same
  rw [BitVec.toNat_setWidth_of_le (by decide),
    BitVec.toNat_setWidth_of_le (by decide), offset_toNat, offset_toNat]
    at offsets
  have numbers : first.number.toNat = second.number.toNat := by omega
  have found := listed_number first
  rw [numbers, listed_number] at found
  exact (Option.some.inj found).symm

theorem call_entry
    (runtime : Runtime)
    (entry : Entry)
    (state : State) :
    call runtime (state.get Helper.jumpTableAddress +
        entry.offset.setWidth 64) state =
      match entry.destination with
      | .routine routine => runtime routine state
      | .evaluator stub => stub.run state := by
  have offset : (state.get Helper.jumpTableAddress +
      entry.offset.setWidth 64 - state.get Helper.jumpTableAddress).toNat =
        4 * entry.number.toNat := by
    rw [add_sub_cancel_left, BitVec.toNat_setWidth,
      entry.offset_toNat, Nat.mod_eq_of_lt]
    have bound := entry.number.isLt
    omega
  simp only [call, offset]
  rw [if_pos (by omega), Nat.mul_div_cancel_left _ (by decide),
    tableAddress_number]
  cases entry.destination <;> rfl

end JumpTable

/-! ## Evaluation -/

namespace Instruction

/-- Code that evaluates the overflow flag in `t4`. -/
def evaluateOverflow : List Inst :=
  lhu .t4 Helper.contextAddress (overflowOperationOffset.setWidth 16) ::
    JumpTable.jumpTableOffset .t4

/-- Code that evaluates the carry flag in `t4`. -/
def evaluateCarry : List Inst :=
  lhu .t4 Helper.contextAddress (carryOperationOffset.setWidth 16) ::
    JumpTable.jumpTableOffset .t4

end Instruction

/-- Registers that the evaluation of a flag may change. -/
def evaluationScratch : List Register := [.t4, .t5, .t6, .ra]

/-- Some code leaves a flag in `t4` and keeps everything but the scratch
registers. -/
def Evaluates
    (env : Environment)
    (code : List Inst)
    (state : State)
    (flag : Bool) : Prop :=
  ∃ final, env.Exits code state (.ended final) ∧
    final.get .t4 = bit flag ∧
    final.mem = state.mem ∧
    ∀ register, register ∉ evaluationScratch ->
      final.get register = state.get register

/-- The register for the table holds the address of a table. -/
def TableAligned (state : State) : Prop :=
  (state.get Helper.jumpTableAddress).toNat % 4 = 0

instance (state : State) : Decidable (TableAligned state) :=
  inferInstanceAs (Decidable (_ = _))

/-- Every entry has the address of an instruction. -/
theorem TableAligned.entry
    {state : State}
    (aligned : TableAligned state)
    (entry : JumpTable.Entry) :
    (state.get Helper.jumpTableAddress +
      entry.offset.setWidth 64).toNat % 4 = 0 := by
  have table : (state.get Helper.jumpTableAddress).toNat % 4 = 0 := aligned
  have offset := entry.offset_toNat
  simp only [BitVec.toNat_add, BitVec.toNat_setWidth]
  omega

/-- Code behind a load of the offset of a routine calls the routine. -/
theorem run_tableOffset
    {runtime : JumpTable.Runtime}
    {env : Environment}
    {entry : JumpTable.Entry}
    {state : State}
    {offset : BitVec 16}
    (permits : env.PermitsEverything)
    (aligned : TableAligned state)
    (operation : state.mem.load
      (state.get .s11 + (offset.setWidth 12).signExtend 64) 2 =
        entry.offset.setWidth 64) :
    let target := state.get Helper.jumpTableAddress +
      entry.offset.setWidth 64
    ∃ called : State, called.mem = state.mem ∧
      (∀ register, register ∉ [.t4, .ra] ->
        called.get register = state.get register) ∧
      Stub.CanReturn called ∧
      (JumpTable.dispatch runtime env).run
          (lhu .t4 Helper.contextAddress offset ::
            JumpTable.jumpTableOffset .t4) 3 0 state =
        match JumpTable.call runtime target called with
        | some returned => .next 3 returned
        | none => .exit (.left target called) := by
  intro target
  let dispatch := JumpTable.dispatch runtime env
  have permits : dispatch.PermitsEverything := permits
  let code :=
    lhu .t4 Helper.contextAddress offset :: JumpTable.jumpTableOffset .t4
  let loaded := state.set .t4 (entry.offset.setWidth 64)
  let jumping := loaded.set .t4 target
  let called := jumping.set .ra (dispatch.address 3)
  have kept : ∀ register, register ∉ [.t4, .ra] ->
      called.get register = state.get register := by
    intro register outside
    simp only [List.mem_cons, List.not_mem_nil, or_false, not_or] at outside
    rw [State.set_get_of_ne _ _ outside.2, State.set_get_of_ne _ _ outside.1,
      State.set_get_of_ne _ _ outside.1]
  have targetAligned : target.toNat % 4 = 0 := aligned.entry entry
  have loads : dispatch.step code 0 state = .next 1 loaded := by
    rw [Environment.step_permitted (rfl : code[0]? = some _) (permits _ _)]
    simp only [lhu, load, Environment.execute, Inst.apply, effectiveAddress,
      Helper.contextAddress, Load.eval, Load.width, Width.bytes, operation]
    rfl
  have adds : dispatch.step code 1 loaded = .next 2 jumping := by
    rw [Environment.step_permitted (rfl : code[1]? = some _) (permits _ _)]
    rfl
  have jumps : jumpTarget jumping .t4 0 = target := by
    have value : jumping.get .t4 = target :=
      State.set_get_self _ _ (by decide)
    rw [jumpTarget_of_aligned (value ▸ targetAligned), value]
  have canReturn : Stub.CanReturn called := by
    have link : called.get .ra = dispatch.address 3 :=
      State.set_get_self _ _ (by decide)
    exact jumpTarget_of_aligned (link ▸ dispatch.address_aligned 3)
  have calls : dispatch.step code 2 jumping =
      match dispatch.call target called with
      | some returned => .next 3 returned
      | none => .exit (.left target called) := by
    rw [Environment.step_permitted (rfl : code[2]? = some _) (permits _ _)]
    simp only [jalr, Environment.execute]
    change (match dispatch.call (jumpTarget jumping .t4 0) called with
      | some returned => Step.next 3 returned
      | none => .exit (.left (jumpTarget jumping .t4 0) called)) = _
    rw [jumps]
  refine ⟨called, rfl, kept, canReturn, ?_⟩
  change dispatch.run code 3 0 state = _
  simp only [Environment.run, loads, adds, calls]
  cases found : dispatch.call target called <;>
    rw [show JumpTable.call runtime target called = _ from found]

/-- The code ends with what the routine returns. -/
theorem exits_tableOffset
    {runtime : JumpTable.Runtime}
    {env : Environment}
    {entry : JumpTable.Entry}
    {state : State}
    {offset : BitVec 16}
    (permits : env.PermitsEverything)
    (aligned : TableAligned state)
    (operation : state.mem.load
      (state.get .s11 + (offset.setWidth 12).signExtend 64) 2 =
        entry.offset.setWidth 64) :
    ∃ called : State, called.mem = state.mem ∧
      (∀ register, register ∉ [.t4, .ra] ->
        called.get register = state.get register) ∧
      Stub.CanReturn called ∧
      ∀ final, JumpTable.call runtime (state.get Helper.jumpTableAddress +
          entry.offset.setWidth 64) called = some final ->
        (JumpTable.dispatch runtime env).Exits
          (lhu .t4 Helper.contextAddress offset ::
            JumpTable.jumpTableOffset .t4) state (.ended final) := by
  obtain ⟨called, mem, kept, canReturn, runs⟩ :=
    @run_tableOffset runtime env entry state offset permits aligned operation
  refine ⟨called, mem, kept, canReturn, fun final returns => ⟨4, ?_⟩⟩
  rw [Environment.run_add _ _ 3 1, runs, returns]
  simp only [Environment.run]
  rw [show (3 : Nat) = (lhu .t4 Helper.contextAddress offset ::
    JumpTable.jumpTableOffset .t4).length from rfl, Environment.step_length]

/-- Code behind a load of the offset of a routine evaluates the flag. -/
theorem evaluates_of_yields
    {runtime : JumpTable.Runtime}
    {env : Environment}
    {entry : JumpTable.Entry}
    {stub : Stub}
    {state : State}
    {offset : BitVec 16}
    {flag : Bool}
    (permits : env.PermitsEverything)
    (aligned : TableAligned state)
    (destination : entry.destination = .evaluator stub)
    (operation : state.mem.load
      (state.get .s11 + (offset.setWidth 12).signExtend 64) 2 =
        entry.offset.setWidth 64)
    (yields : ∀ called, called.mem = state.mem ->
      (∀ register, register ∉ [.t4, .ra] ->
        called.get register = state.get register) ->
      Stub.CanReturn called -> stub.Yields called flag) :
    Evaluates (JumpTable.dispatch runtime env)
      (lhu .t4 Helper.contextAddress offset :: JumpTable.jumpTableOffset .t4)
      state flag := by
  obtain ⟨called, sameCalled, kept, canReturn, exits⟩ :=
    @exits_tableOffset runtime env entry state offset permits aligned operation
  obtain ⟨final, runs, value, sameMemory, sameRegisters⟩ :=
    yields called sameCalled kept canReturn
  have entered := JumpTable.call_entry runtime entry called
  rw [kept Helper.jumpTableAddress (by decide), destination] at entered
  refine ⟨final, exits final (entered.trans runs), value,
    sameMemory.trans sameCalled, ?_⟩
  intro register outside
  simp only [evaluationScratch, List.mem_cons, List.not_mem_nil, or_false,
    not_or] at outside
  rw [sameRegisters register (by simp [Stub.scratch, outside]),
    kept register (by simp [outside])]

/-- A flag whose routine does not return cannot be evaluated. -/
theorem not_evaluates_of_faults
    {runtime : JumpTable.Runtime}
    {env : Environment}
    {entry : JumpTable.Entry}
    {routine : JumpTable.Routine}
    {state : State}
    {offset : BitVec 16}
    (permits : env.PermitsEverything)
    (aligned : TableAligned state)
    (destination : entry.destination = .routine routine)
    (faults : ∀ called, runtime routine called = none)
    (operation : state.mem.load
      (state.get .s11 + (offset.setWidth 12).signExtend 64) 2 =
        entry.offset.setWidth 64)
    (flag : Bool) :
    ¬ Evaluates (JumpTable.dispatch runtime env)
      (lhu .t4 Helper.contextAddress offset :: JumpTable.jumpTableOffset .t4)
      state flag := by
  rintro ⟨final, exits, -, -, -⟩
  obtain ⟨called, -, kept, -, runs⟩ :=
    @run_tableOffset runtime env entry state offset permits aligned operation
  have entered := JumpTable.call_entry runtime entry called
  rw [kept Helper.jumpTableAddress (by decide), destination] at entered
  simp only [faults] at entered
  rw [entered] at runs
  have same := exits.unique ⟨3, runs⟩
  cases same

/-! ## Exactness -/

/-- The flag routines for a width return the flags of the x86 instructions
that have stored the values. -/
structure ExactEvaluators (env : Environment) (width : Width) : Prop where
  /-- The sizes of the operands select the routines of their width. -/
  calculateEntries (carry overflow : Width -> JumpTable.Entry) :
    Helper.calculateEntries carry overflow width.bytes =
      some (carry width, overflow width)
  /-- The sum of two operands carries. -/
  carryAdd (state : State) (first second : Nat) :
    TableAligned state ->
    carryOperation state =
      (JumpTable.Entry.carryAdd width).offset.setWidth 64 ->
    first < 2 ^ width.bits ->
    second < 2 ^ width.bits ->
    unsignedPart width (carryValue state 0) = first ->
    unsignedPart width (carryValue state 1) =
      (first + second) % 2 ^ width.bits ->
    Evaluates env Instruction.evaluateCarry state
      (2 ^ width.bits ≤ first + second)
  /-- The sum of two operands and the carry carries. -/
  carryAdc (state : State) (first second : Nat) :
    TableAligned state ->
    carryOperation state =
      (JumpTable.Entry.carryAdc width).offset.setWidth 64 ->
    first < 2 ^ width.bits ->
    second < 2 ^ width.bits ->
    unsignedPart width (carryValue state 0) = first ->
    unsignedPart width (carryValue state 1) =
      (first + second + 1) % 2 ^ width.bits ->
    Evaluates env Instruction.evaluateCarry state
      (2 ^ width.bits ≤ first + second + 1)
  /-- The negated operand is not zero. -/
  carryNeg (state : State) :
    TableAligned state ->
    carryOperation state =
      (JumpTable.Entry.carryNeg width).offset.setWidth 64 ->
    Evaluates env Instruction.evaluateCarry state
      (unsignedPart width (carryValue state 0) ≠ 0)
  overflowAdd (state : State) :
    TableAligned state ->
    overflowOperation state =
      (JumpTable.Entry.overflowAdd width).offset.setWidth 64 ->
    Evaluates env Instruction.evaluateOverflow state
      (!decide (Fits width.bits
        (signedPart width (overflowValue state 0) +
          signedPart width (overflowValue state 1))))
  overflowAdc (state : State) :
    TableAligned state ->
    overflowOperation state =
      (JumpTable.Entry.overflowAdc width).offset.setWidth 64 ->
    Evaluates env Instruction.evaluateOverflow state
      (!decide (Fits width.bits
        (signedPart width (overflowValue state 0) +
          signedPart width (overflowValue state 1) + 1)))
  overflowSub (state : State) :
    TableAligned state ->
    overflowOperation state =
      (JumpTable.Entry.overflowSub width).offset.setWidth 64 ->
    Evaluates env Instruction.evaluateOverflow state
      (!decide (Fits width.bits
        (signedPart width (overflowValue state 1) -
          signedPart width (overflowValue state 0))))
  /-- The sum with an immediate that is not negative overflows. -/
  overflowAddPos (state : State) (immediate : Int) :
    TableAligned state ->
    overflowOperation state =
      (JumpTable.Entry.overflowAddPos width).offset.setWidth 64 ->
    0 ≤ immediate ->
    immediate ≤ 2 ^ (width.bits - 1) ->
    (unsignedPart width (overflowValue state 1) : Int) =
      ((overflowValue state 0).toNat + immediate) % 2 ^ width.bits ->
    Evaluates env Instruction.evaluateOverflow state
      (!decide (Fits width.bits
        (signedPart width (overflowValue state 0) + immediate)))
  /-- The sum with an immediate that is not positive overflows. -/
  overflowAddNeg (state : State) (immediate : Int) :
    TableAligned state ->
    overflowOperation state =
      (JumpTable.Entry.overflowAddNeg width).offset.setWidth 64 ->
    -2 ^ (width.bits - 1) ≤ immediate ->
    immediate ≤ 0 ->
    (unsignedPart width (overflowValue state 1) : Int) =
      ((overflowValue state 0).toNat + immediate) % 2 ^ width.bits ->
    Evaluates env Instruction.evaluateOverflow state
      (!decide (Fits width.bits
        (signedPart width (overflowValue state 0) + immediate)))
  overflowInc (state : State) :
    TableAligned state ->
    overflowOperation state =
      (JumpTable.Entry.overflowInc width).offset.setWidth 64 ->
    Evaluates env Instruction.evaluateOverflow state
      (!decide (Fits width.bits
        (signedPart width (overflowValue state 0) + 1)))
  overflowDec (state : State) :
    TableAligned state ->
    overflowOperation state =
      (JumpTable.Entry.overflowDecNeg width).offset.setWidth 64 ->
    Evaluates env Instruction.evaluateOverflow state
      (!decide (Fits width.bits
        (signedPart width (overflowValue state 0) - 1)))
  overflowNeg (state : State) :
    TableAligned state ->
    overflowOperation state =
      (JumpTable.Entry.overflowDecNeg width).offset.setWidth 64 ->
    Evaluates env Instruction.evaluateOverflow state
      (!decide (Fits width.bits
        (-signedPart width (overflowValue state 0))))
  /-- Every routine for the carry flag looks at the low bits only. -/
  carryLow (entry : Width -> JumpTable.Entry) :
    entry ∈ [.carryAdd, .carryAdc, .carryNeg] ->
    ∃ flag : Nat -> Nat -> Bool, ∀ state, TableAligned state ->
      carryOperation state = (entry width).offset.setWidth 64 ->
      Evaluates env Instruction.evaluateCarry state
        (flag (unsignedPart width (carryValue state 0))
          (unsignedPart width (carryValue state 1)))
  /-- Every routine for the overflow flag looks at the low bits only. -/
  overflowLow (entry : Width -> JumpTable.Entry) :
    entry ∈ [.overflowAdd, .overflowAdc, .overflowSub, .overflowAddPos,
      .overflowAddNeg, .overflowInc, .overflowDecNeg] ->
    ∃ flag : Int -> Int -> Bool, ∀ state, TableAligned state ->
      overflowOperation state = (entry width).offset.setWidth 64 ->
      Evaluates env Instruction.evaluateOverflow state
        (flag (signedPart width (overflowValue state 0))
          (signedPart width (overflowValue state 1)))

section

variable {env : Environment} {runtime : JumpTable.Runtime}
variable {entry : JumpTable.Entry} {stub : Stub} {state : State}

theorem evaluateCarry_of_yields
    (flag : Word -> Word -> Bool)
    (permits : env.PermitsEverything)
    (destination : entry.destination = .evaluator stub)
    (yields : ∀ {called}, Stub.CanReturn called -> stub.Yields called
      (flag (carryValue called 0) (carryValue called 1)))
    (aligned : TableAligned state)
    (operation : carryOperation state = entry.offset.setWidth 64) :
    Evaluates (JumpTable.dispatch runtime env) Instruction.evaluateCarry state
      (flag (carryValue state 0) (carryValue state 1)) := by
  apply evaluates_of_yields permits aligned destination
  · simpa [carryOperation, carryOperationOffset, flagInfoOffset] using operation
  · intro called sameMemory sameRegisters canReturn
    have sameValue (index : Fin 2) :
        carryValue called index = carryValue state index := by
      rw [carryValue, carryValue, sameMemory, sameRegisters .s11 (by decide)]
    rw [← sameValue, ← sameValue]
    exact yields canReturn

theorem evaluateOverflow_of_yields
    (flag : Word -> Word -> Bool)
    (permits : env.PermitsEverything)
    (destination : entry.destination = .evaluator stub)
    (yields : ∀ {called}, Stub.CanReturn called -> stub.Yields called
      (flag (overflowValue called 0) (overflowValue called 1)))
    (aligned : TableAligned state)
    (operation : overflowOperation state = entry.offset.setWidth 64) :
    Evaluates (JumpTable.dispatch runtime env) Instruction.evaluateOverflow
      state (flag (overflowValue state 0) (overflowValue state 1)) := by
  apply evaluates_of_yields permits aligned destination
  · simpa [overflowOperation, overflowOperationOffset, flagInfoOffset] using
      operation
  · intro called sameMemory sameRegisters canReturn
    have sameValue (index : Fin 2) :
        overflowValue called index = overflowValue state index := by
      rw [overflowValue, overflowValue, sameMemory,
        sameRegisters .s11 (by decide)]
    rw [← sameValue, ← sameValue]
    exact yields canReturn

end

/-- The result of an addition, as a signed number. -/
theorem signedPart_of_sum
    {width : Width}
    {before after : Word}
    {immediate : Int}
    (sum : (unsignedPart width after : Int) =
      (before.toNat + immediate) % 2 ^ width.bits) :
    signedPart width after =
      wrap width.bits (signedPart width before + immediate) := by
  have unsignedAfter := Stub.wrap_unsignedPart_add width after 0
  rw [Int.add_zero, Int.add_zero, sum] at unsignedAfter
  have signedAfter := wrap_eq_of_fits width.bits_pos
    (fits_signedPart width after)
  rw [← signedAfter, ← unsignedAfter, signedPart, wrap, wrap, wrap,
    Int.bmod_add_bmod]
  exact_mod_cast Int.emod_bmod _ _

namespace JumpTable

/-- The carry flag that an entry makes of the stored values. -/
def Entry.carryFlag (entry : Entry) (first second : Word) : Option Bool :=
  match entry with
  | carryClear => some false
  | carrySet => some true
  | carryAdd width =>
      some (unsignedPart width second < unsignedPart width first)
  | carryAdc width =>
      some (unsignedPart width second ≤ unsignedPart width first)
  | carryNeg width => some (unsignedPart width first ≠ 0)
  | _ => none

/-- The overflow flag that an entry makes of the stored values. -/
def Entry.overflowFlag (entry : Entry) (first second : Word) : Option Bool :=
  match entry with
  | overflowClear => some false
  | overflowSet => some true
  | overflowAdd width => some (!decide (Fits width.bits
      (signedPart width first + signedPart width second)))
  | overflowAdc width => some (!decide (Fits width.bits
      (signedPart width first + signedPart width second + 1)))
  | overflowAddPos width =>
      some (signedPart width second < signedPart width first)
  | overflowAddNeg width =>
      some (signedPart width first < signedPart width second)
  | overflowSub width => some (!decide (Fits width.bits
      (signedPart width second - signedPart width first)))
  | overflowInc width => some (!decide (Fits width.bits
      (signedPart width first + 1)))
  | overflowDecNeg width =>
      some (signedPart width first = -2 ^ (width.bits - 1))
  | _ => none

namespace Entry

/-- The entry is stored for the carry flag. -/
def IsCarry : Entry -> Prop
  | carryClear | carrySet | carryAdd _ | carryAdc _ | carryNeg _
  | unsupportedCarry | highLevelCarry => True
  | _ => False

/-- The entry is stored for the overflow flag. -/
def IsOverflow : Entry -> Prop
  | overflowClear | overflowSet | overflowAdd _ | overflowAdc _
  | overflowAddPos _ | overflowAddNeg _ | overflowSub _ | overflowInc _
  | overflowDecNeg _ | unsupportedOverflow | highLevelOverflow => True
  | _ => False

theorem IsCarry.cases
    {entry : Entry}
    (isCarry : entry.IsCarry)
    (first second : Word) :
    (∃ flag, entry.carryFlag first second = some flag) ∨
      entry = unsupportedCarry ∨ entry = highLevelCarry := by
  cases entry <;> first
    | exact absurd isCarry id
    | exact Or.inl ⟨_, rfl⟩
    | exact Or.inr (Or.inl rfl)
    | exact Or.inr (Or.inr rfl)

theorem IsOverflow.cases
    {entry : Entry}
    (isOverflow : entry.IsOverflow)
    (first second : Word) :
    (∃ flag, entry.overflowFlag first second = some flag) ∨
      entry = unsupportedOverflow ∨ entry = highLevelOverflow := by
  cases entry <;> first
    | exact absurd isOverflow id
    | exact Or.inl ⟨_, rfl⟩
    | exact Or.inr (Or.inl rfl)
    | exact Or.inr (Or.inr rfl)

/-- A routine for the carry flag returns it. -/
theorem IsCarry.yields
    {entry : Entry}
    (isCarry : entry.IsCarry)
    {stub : Stub}
    (destination : entry.destination = .evaluator stub)
    {state : State}
    (canReturn : Stub.CanReturn state) :
    ∃ flag, stub.Yields state flag := by
  cases entry <;> first | exact absurd isCarry id | cases destination
  case carryClear => exact ⟨_, Stub.carryClear_yields canReturn⟩
  case carrySet => exact ⟨_, Stub.carrySet_yields canReturn⟩
  case carryAdd width => exact ⟨_, Stub.carryAdd_yields width canReturn⟩
  case carryAdc width => exact ⟨_, Stub.carryAdc_yields width canReturn⟩
  case carryNeg width => exact ⟨_, Stub.carryNeg_yields width canReturn⟩

end Entry

end JumpTable

section

variable {runtime : JumpTable.Runtime} {env : Environment}
variable {entry : JumpTable.Entry} {state : State} {flag : Bool}

theorem evaluateCarry_entry
    (permits : env.PermitsEverything)
    (aligned : TableAligned state)
    (operation : carryOperation state = entry.offset.setWidth 64)
    (evaluates : entry.carryFlag (carryValue state 0) (carryValue state 1) =
      some flag) :
    Evaluates (JumpTable.dispatch runtime env) Instruction.evaluateCarry state
      flag := by
  cases entry <;> simp only [JumpTable.Entry.carryFlag, Option.some.injEq,
    reduceCtorEq] at evaluates <;> subst evaluates
  case carryClear =>
    exact evaluateCarry_of_yields (fun _ _ => false) permits rfl
      Stub.carryClear_yields aligned operation
  case carrySet =>
    exact evaluateCarry_of_yields (fun _ _ => true) permits rfl
      Stub.carrySet_yields aligned operation
  case carryAdd width =>
    exact evaluateCarry_of_yields
      (fun first second => decide
        (unsignedPart width second < unsignedPart width first))
      permits rfl (Stub.carryAdd_yields width) aligned operation
  case carryAdc width =>
    exact evaluateCarry_of_yields
      (fun first second => decide
        (unsignedPart width second ≤ unsignedPart width first))
      permits rfl (Stub.carryAdc_yields width) aligned operation
  case carryNeg width =>
    exact evaluateCarry_of_yields
      (fun first _ => decide (unsignedPart width first ≠ 0))
      permits rfl (Stub.carryNeg_yields width) aligned operation

theorem evaluateOverflow_entry
    (permits : env.PermitsEverything)
    (aligned : TableAligned state)
    (operation : overflowOperation state = entry.offset.setWidth 64)
    (evaluates : entry.overflowFlag (overflowValue state 0)
      (overflowValue state 1) = some flag) :
    Evaluates (JumpTable.dispatch runtime env) Instruction.evaluateOverflow
      state flag := by
  cases entry <;> simp only [JumpTable.Entry.overflowFlag,
    Option.some.injEq, reduceCtorEq] at evaluates <;> subst evaluates
  case overflowClear =>
    exact evaluateOverflow_of_yields (fun _ _ => false) permits rfl
      Stub.overflowClear_yields aligned operation
  case overflowSet =>
    exact evaluateOverflow_of_yields (fun _ _ => true) permits rfl
      Stub.overflowSet_yields aligned operation
  case overflowAdd width =>
    exact evaluateOverflow_of_yields
      (fun first second => !decide (Fits width.bits
        (signedPart width first + signedPart width second)))
      permits rfl (Stub.overflowAdd_yields width) aligned operation
  case overflowAdc width =>
    exact evaluateOverflow_of_yields
      (fun first second => !decide (Fits width.bits
        (signedPart width first + signedPart width second + 1)))
      permits rfl (Stub.overflowAdc_yields width) aligned operation
  case overflowAddPos width =>
    exact evaluateOverflow_of_yields
      (fun first second => decide
        (signedPart width second < signedPart width first))
      permits rfl (Stub.overflowAddPos_yields width) aligned operation
  case overflowAddNeg width =>
    exact evaluateOverflow_of_yields
      (fun first second => decide
        (signedPart width first < signedPart width second))
      permits rfl (Stub.overflowAddNeg_yields width) aligned operation
  case overflowSub width =>
    exact evaluateOverflow_of_yields
      (fun first second => !decide (Fits width.bits
        (signedPart width second - signedPart width first)))
      permits rfl (Stub.overflowSub_yields width) aligned operation
  case overflowInc width =>
    exact evaluateOverflow_of_yields
      (fun first _ => !decide (Fits width.bits (signedPart width first + 1)))
      permits rfl (Stub.overflowInc_yields width) aligned operation
  case overflowDecNeg width =>
    exact evaluateOverflow_of_yields
      (fun first _ => decide
        (signedPart width first = -2 ^ (width.bits - 1)))
      permits rfl (Stub.overflowDecNeg_yields width) aligned operation

end

/-- The low bits of the values decide about the carry flag. -/
theorem carryFlag_low
    {entry : Width -> JumpTable.Entry}
    (evaluator : entry ∈ [.carryAdd, .carryAdc, .carryNeg])
    (width : Width) :
    ∃ flag : Nat -> Nat -> Bool, ∀ first second,
      (entry width).carryFlag first second =
        some (flag (unsignedPart width first) (unsignedPart width second)) := by
  simp only [List.mem_cons, List.not_mem_nil, or_false] at evaluator
  rcases evaluator with rfl | rfl | rfl
  · exact ⟨fun first second => second < first, fun _ _ => rfl⟩
  · exact ⟨fun first second => second ≤ first, fun _ _ => rfl⟩
  · exact ⟨fun first _ => first ≠ 0, fun _ _ => rfl⟩

/-- The low bits of the values decide about the overflow flag. -/
theorem overflowFlag_low
    {entry : Width -> JumpTable.Entry}
    (evaluator : entry ∈ [.overflowAdd, .overflowAdc, .overflowSub,
      .overflowAddPos, .overflowAddNeg, .overflowInc, .overflowDecNeg])
    (width : Width) :
    ∃ flag : Int -> Int -> Bool, ∀ first second,
      (entry width).overflowFlag first second =
        some (flag (signedPart width first) (signedPart width second)) := by
  simp only [List.mem_cons, List.not_mem_nil, or_false] at evaluator
  rcases evaluator with rfl | rfl | rfl | rfl | rfl | rfl | rfl
  · exact ⟨fun first second => !decide (Fits width.bits (first + second)),
      fun _ _ => rfl⟩
  · exact ⟨fun first second => !decide (Fits width.bits (first + second + 1)),
      fun _ _ => rfl⟩
  · exact ⟨fun first second => !decide (Fits width.bits (second - first)),
      fun _ _ => rfl⟩
  · exact ⟨fun first second => second < first, fun _ _ => rfl⟩
  · exact ⟨fun first second => first < second, fun _ _ => rfl⟩
  · exact ⟨fun first _ => !decide (Fits width.bits (first + 1)),
      fun _ _ => rfl⟩
  · exact ⟨fun first _ => first = -2 ^ (width.bits - 1), fun _ _ => rfl⟩

/-- The flag routines are exact for every width. -/
theorem exactEvaluators
    (runtime : JumpTable.Runtime)
    (env : Environment)
    (permits : env.PermitsEverything)
    (width : Width) :
    ExactEvaluators (JumpTable.dispatch runtime env) width where
  calculateEntries carry overflow := by cases width <;> rfl
  carryAdd state first second aligned operation firstLt secondLt source
      result := by
    apply evaluateCarry_entry permits aligned operation
    simp only [JumpTable.Entry.carryFlag, source, result,
      wrapped_lt_iff firstLt secondLt]
  carryAdc state first second aligned operation firstLt secondLt source
      result := by
    apply evaluateCarry_entry permits aligned operation
    simp only [JumpTable.Entry.carryFlag, source, result,
      wrapped_succ_le_iff firstLt secondLt]
  carryNeg state aligned operation :=
    evaluateCarry_entry permits aligned operation rfl
  overflowAdd state aligned operation :=
    evaluateOverflow_entry permits aligned operation rfl
  overflowAdc state aligned operation :=
    evaluateOverflow_entry permits aligned operation rfl
  overflowSub state aligned operation :=
    evaluateOverflow_entry permits aligned operation rfl
  overflowAddPos state immediate aligned operation lower upper sum := by
    apply evaluateOverflow_entry permits aligned operation
    simp only [JumpTable.Entry.overflowFlag, signedPart_of_sum sum,
      wrap_add_lt_iff width.bits_pos (fits_signedPart width _) lower upper,
      decide_not]
  overflowAddNeg state immediate aligned operation lower upper sum := by
    apply evaluateOverflow_entry permits aligned operation
    simp only [JumpTable.Entry.overflowFlag, signedPart_of_sum sum,
      lt_wrap_add_iff width.bits_pos (fits_signedPart width _) lower upper,
      decide_not]
  overflowInc state aligned operation :=
    evaluateOverflow_entry permits aligned operation rfl
  overflowDec state aligned operation := by
    apply evaluateOverflow_entry permits aligned operation
    have fits := fits_signedPart width (overflowValue state 0)
    have least : ¬ Fits width.bits
        (signedPart width (overflowValue state 0) - 1) ↔
        signedPart width (overflowValue state 0) = -2 ^ (width.bits - 1) := by
      unfold Fits at fits ⊢
      omega
    simp only [JumpTable.Entry.overflowFlag, ← least, decide_not]
  overflowNeg state aligned operation := by
    apply evaluateOverflow_entry permits aligned operation
    have fits := fits_signedPart width (overflowValue state 0)
    simp only [JumpTable.Entry.overflowFlag, fits_neg_iff fits, ne_eq,
      decide_not, Bool.not_not]
  carryLow entry evaluator := by
    obtain ⟨flag, low⟩ := carryFlag_low evaluator width
    exact ⟨flag, fun state aligned operation =>
      evaluateCarry_entry permits aligned operation (low _ _)⟩
  overflowLow entry evaluator := by
    obtain ⟨flag, low⟩ := overflowFlag_low evaluator width
    exact ⟨flag, fun state aligned operation =>
      evaluateOverflow_entry permits aligned operation (low _ _)⟩

/-- A state after an addition of bytes, 200 and 100. -/
def carryingState : State where
  regs
    | .s10 => 0x2000
    | .s11 => 0x1000
    | _ => 0
  mem address :=
    if address = 0x1242 then (JumpTable.Entry.carryAdd .byte).offset.setWidth 8
    else if address = 0x1220 then 200
    else if address = 0x1228 then 44
    else 0

theorem exactEvaluators_carryingState :
    Evaluates (JumpTable.dispatch (fun _ _ => none) Stub.environment)
      Instruction.evaluateCarry carryingState true :=
  (exactEvaluators (fun _ _ => none) Stub.environment (fun _ _ => rfl)
    .byte).carryAdd carryingState 200 100 rfl (by decide +kernel)
      (by decide) (by decide) (by decide +kernel) (by decide +kernel)

end Oxtra

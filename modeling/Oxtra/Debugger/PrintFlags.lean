import Oxtra.FlagEvaluation.Evaluation

/-!
# Flags in the debugger

The debugger evaluates the lazy flags on its own to list them.  It lists the
zero and the parity flag as the guest code sees them, the sign flag if there
is nothing above it, and the other two only through callbacks.
-/

namespace Oxtra

open RiscV
open Helper
open FlagInfo
open JumpTable

namespace Debugger

/-! ## `print_flags` -/

/-- A function that computes a flag from its pointer and the context. -/
abbrev Callback := Word -> State -> Word

/-- `Debugger::evaluate_carry` and `Debugger::evaluate_overflow`: the result of
the routine at the offset in a field, if it returns. -/
def evaluateFlag
    (runtime : Runtime)
    (tempContext link : Word)
    (operation : Field)
    (state : State) : Option Word :=
  let target := fields state operation + state.get jumpTableAddress
  let context := state.get contextAddress
  let entered := (((state.set .t0 tempContext).set .t1 context).set .t3
    target).set .ra link
  (JumpTable.call runtime target entered).map fun returned => returned.get .t4

/-- The parity of the lowest byte, folded into one bit. -/
def foldParity (value : BitVec 8) : BitVec 8 :=
  let temp := (value &&& 0x0f) ^^^ (value >>> 4)
  let temp := (temp &&& 0x03) ^^^ (temp >>> 2)
  (temp &&& 0x01) ^^^ (temp >>> 1)

/-- The flags in the brackets, and the text behind the brackets. -/
structure FlagReport where
  flags : List Flag
  endStr : String
  deriving DecidableEq, Repr

/-- A flag is listed if its callback, or else its routine, is not zero. -/
def listHighLevel
    (flag : Flag)
    (called : Word)
    (evaluated : Option Word) : Option (List Flag) :=
  if called ≠ 0 then
    some [flag]
  else
    evaluated.map fun value => if value ≠ 0 then [flag] else []

section Printing

variable (runtime : Runtime) (callback : Callback) (text : Word -> String)
variable (tempContext link : Word)

/-- What `print_flags` writes about the carry flag. -/
def reportCarry (state : State) : Option FlagReport :=
  let contents := fields state
  let operation := contents .carryOperation
  if operation = Entry.unsupportedCarry.offset.setWidth 64 then
    some ⟨[], "CF: " ++ text (contents .carryPtr)⟩
  else if operation = Entry.highLevelCarry.offset.setWidth 64 then
    (listHighLevel .carry (callback (contents .carryPtr) state)
      (evaluateFlag runtime tempContext link .carryOperation state)).map
        fun flags => ⟨flags, ""⟩
  else
    some ⟨[], ""⟩

/-- What `print_flags` writes about the overflow flag, behind the text about
the carry flag.  It looks for the callback in the operation of the carry. -/
def reportOverflow (state : State) (endStr : String) : Option FlagReport :=
  let contents := fields state
  if contents .overflowOperation =
      Entry.unsupportedOverflow.offset.setWidth 64 then
    some ⟨[], (if endStr ≠ "" then endStr ++ "; " else endStr) ++ "OF: " ++
      text (contents .overflowPtr)⟩
  else if contents .carryOperation =
      Entry.highLevelOverflow.offset.setWidth 64 then
    (listHighLevel .overflow (callback (contents .overflowPtr) state)
      (evaluateFlag runtime tempContext link .overflowOperation state)).map
        fun flags => ⟨flags, endStr⟩
  else
    some ⟨[], endStr⟩

/-- The flags that `print_flags` lists, in their order. -/
def flagReport (state : State) : Option FlagReport := do
  let contents := fields state
  let zero := if contents .zeroValue = 0 then [Flag.zero] else []
  let sign :=
    if contents .signValue >>> shiftAmount (contents .signSize) = 1 then
      [Flag.sign]
    else
      []
  let parity :=
    if foldParity ((contents .parityValue).setWidth 8) = 0 then
      [Flag.parity]
    else
      []
  let carry ← reportCarry runtime callback text tempContext link state
  let overflow ← reportOverflow runtime callback text tempContext link state
    carry.endStr
  return ⟨zero ++ sign ++ parity ++ carry.flags ++ overflow.flags,
    overflow.endStr⟩

/-- The name that a flag is listed under. -/
def flagName : Flag -> String
  | .zero => "ZF "
  | .sign => "SF "
  | .parity => "PF "
  | .carry => "CF "
  | .overflow => "OF "

/-- `Debugger::print_flags` -/
def printFlags (state : State) : Option String := do
  let report ← flagReport runtime callback text tempContext link state
  return "flags:\n  [ " ++ String.join (report.flags.map flagName) ++ "] " ++
    report.endStr ++ "\n"

/-- The flag is listed. -/
def Lists (state : State) (flag : Flag) : Prop :=
  ∃ report,
    flagReport runtime callback text tempContext link state = some report ∧
      flag ∈ report.flags

end Printing

/-! ## Evaluation by the guest -/

/-- Registers that neither the guest nor a callback uses. -/
def temporaries : List Register := [.t0, .t1, .t2, .t3, .t4, .t5, .t6, .ra]

/-- A routine returns what the callback with a stored pointer returns. -/
def CallsBack
    (runtime : Runtime)
    (callback : Callback)
    (routine : Routine)
    (pointer : Field) : Prop :=
  ∀ called, ∃ returned, runtime routine called = some returned ∧
    returned.get .t4 = callback (fields called pointer) called

/-- A callback does not depend on the temporary registers. -/
def IgnoresTemporaries (callback : Callback) : Prop :=
  ∀ pointer first second, first.mem = second.mem ->
    (∀ register, register ∉ temporaries ->
      first.get register = second.get register) ->
    callback pointer first = callback pointer second

/-- The high-level routines return what the callbacks return, which work on the
context. -/
structure HighLevelRoutines (runtime : Runtime) (callback : Callback) : Prop
    where
  carry : CallsBack runtime callback .highLevelCarry .carryPtr
  overflow : CallsBack runtime callback .highLevelOverflow .overflowPtr
  context : IgnoresTemporaries callback

/-- Some code leaves a value in `t4`. -/
def Yields
    (env : Environment)
    (code : List Inst)
    (state : State)
    (value : Word) : Prop :=
  ∃ final, env.Exits code state (.ended final) ∧ final.get .t4 = value

theorem Yields.unique
    {env : Environment}
    {code : List Inst}
    {state : State}
    {first second : Word}
    (firstYields : Yields env code state first)
    (secondYields : Yields env code state second) :
    first = second := by
  obtain ⟨final, ends, rfl⟩ := firstYields
  obtain ⟨other, otherEnds, rfl⟩ := secondYields
  have same : final = other := by simpa using ends.unique otherEnds
  rw [same]

theorem Yields.iff_eq
    {env : Environment}
    {code : List Inst}
    {state : State}
    {value : Word}
    (yields : Yields env code state value)
    (other : Word) :
    Yields env code state other ↔ value = other := by
  constructor
  · exact yields.unique
  · rintro rfl
    exact yields

theorem yields_one_iff
    {env : Environment}
    {code : List Inst}
    {state : State}
    {flag : Bool}
    (evaluates : Evaluates env code state flag) :
    Yields env code state 1 ↔ flag = true := by
  obtain ⟨final, ends, value, -, -⟩ := evaluates
  have yields : Yields env code state (bit flag) := ⟨final, ends, value⟩
  rw [yields.iff_eq]
  cases flag <;> decide

/-! ## Agreement -/

section Agreement

variable {runtime : Runtime} {callback : Callback} {text : Word -> String}
variable {tempContext link : Word} {env : Environment} {state : State}

/-- A field depends on the memory and the address of the context. -/
theorem fields_congr
    {first second : State}
    (sameMemory : first.mem = second.mem)
    (sameContext : first.get contextAddress = second.get contextAddress) :
    fields first = fields second := by
  funext field
  simp only [fields, Field.read, Field.address, sameMemory, sameContext]

/-- The code for a flag leaves what the callback of the flag returns. -/
theorem yields_callback
    {entry : Entry}
    {routine : Routine}
    {pointer : Field}
    {offset : BitVec 16}
    (permits : env.PermitsEverything)
    (aligned : TableAligned state)
    (goes : entry.destination = .routine routine)
    (callsBack : CallsBack runtime callback routine pointer)
    (context : IgnoresTemporaries callback)
    (operation : state.mem.load
      (state.get .s11 + (offset.setWidth 12).signExtend 64) 2 =
        entry.offset.setWidth 64) :
    Yields (dispatch runtime env)
      (Encoding.lhu .t4 contextAddress offset :: jumpTableOffset .t4) state
      (callback (fields state pointer) state) := by
  obtain ⟨called, mem, kept, -, exits⟩ :=
    @exits_tableOffset runtime env entry state offset permits aligned operation
  obtain ⟨returned, calls, value⟩ := callsBack called
  have entered := call_entry runtime entry called
  rw [kept jumpTableAddress (by decide), goes] at entered
  refine ⟨returned, exits returned (entered.trans calls), ?_⟩
  rw [value, fields_congr mem (kept contextAddress (by decide))]
  apply context _ _ _ mem
  intro register outside
  apply kept
  simp only [temporaries, List.mem_cons, List.not_mem_nil, not_or] at outside
  simp [outside]

/-- What the debugger evaluates is what the callback of the flag returns. -/
theorem evaluateFlag_callback
    {entry : Entry}
    {routine : Routine}
    {pointer operation : Field}
    (goes : entry.destination = .routine routine)
    (callsBack : CallsBack runtime callback routine pointer)
    (context : IgnoresTemporaries callback)
    (stored : fields state operation = entry.offset.setWidth 64) :
    evaluateFlag runtime tempContext link operation state =
      some (callback (fields state pointer) state) := by
  let target := fields state operation + state.get jumpTableAddress
  let entered := (((state.set .t0 tempContext).set .t1
    (state.get contextAddress)).set .t3 target).set .ra link
  have kept : ∀ register, register ∉ temporaries ->
      entered.get register = state.get register := by
    intro register outside
    simp only [temporaries, List.mem_cons, List.not_mem_nil, not_or] at outside
    obtain ⟨notT0, notT1, -, notT3, -, -, -, notRa, -⟩ := outside
    rw [State.set_get_of_ne _ _ notRa, State.set_get_of_ne _ _ notT3,
      State.set_get_of_ne _ _ notT1, State.set_get_of_ne _ _ notT0]
  obtain ⟨returned, calls, value⟩ := callsBack entered
  have reached := call_entry runtime entry entered
  rw [kept jumpTableAddress (by decide), goes, ← stored, add_comm] at reached
  have sameFields : fields entered = fields state :=
    fields_congr rfl (kept contextAddress (by decide))
  have returns : JumpTable.call runtime target entered = some returned :=
    reached.trans calls
  change (JumpTable.call runtime target entered).map _ = _
  rw [returns, Option.map_some, value, sameFields,
    context _ entered state rfl kept]

/-- A value is shifted to one if the lowest bit left is its highest one. -/
theorem shiftRight_eq_one_iff (value : Word) (size : Nat) :
    value >>> size = 1 ↔
      value.getLsbD size = true ∧
        ∀ index, size < index -> value.getLsbD index = false := by
  have one (index : Nat) : (1 : Word).getLsbD index = decide (index = 0) := by
    change (1#64).getLsbD index = _
    rw [BitVec.getLsbD_one, decide_eq_true (by decide), Bool.true_and]
  constructor
  · intro shifted
    have bits (index : Nat) :
        value.getLsbD (size + index) = decide (index = 0) := by
      rw [← one, ← shifted, BitVec.getLsbD_ushiftRight]
    refine ⟨bits 0, fun index above => ?_⟩
    have bit := bits (index - size)
    rw [Nat.add_sub_cancel' (Nat.le_of_lt above)] at bit
    rw [bit, decide_eq_false (by omega)]
  · rintro ⟨lowest, others⟩
    apply BitVec.eq_of_getLsbD_eq
    intro index inside
    rw [BitVec.getLsbD_ushiftRight, one]
    by_cases isZero : index = 0
    · rw [isZero, Nat.add_zero, lowest]
      rfl
    · rw [others _ (by omega), decide_eq_false isZero]

theorem foldParity_eq_zero_iff (value : Word) :
    foldParity (value.setWidth 8) = 0 ↔ evenParity value = true := by
  have bytes : ∀ byte : BitVec 8,
      foldParity byte = 0 ↔ evenParity (byte.setWidth 64) = true := by
    decide +kernel
  have low : evenParity ((value.setWidth 8).setWidth 64) =
      evenParity value := by
    simp [evenParity_eq]
  rw [bytes, low]

theorem listHighLevel_same (flag : Flag) (value : Word) :
    listHighLevel flag value (some value) =
      some (if value ≠ 0 then [flag] else []) := by
  by_cases isZero : value = 0 <;> simp [listHighLevel, isZero]

variable {carry overflow : Entry}

/-- The carry flag is listed through its callback only. -/
theorem reportCarry_eq
    (highLevel : HighLevelRoutines runtime callback)
    (stored : fields state .carryOperation = carry.offset.setWidth 64) :
    ∃ endStr,
      reportCarry runtime callback text tempContext link state =
        some ⟨if carry = .highLevelCarry ∧
            callback (fields state .carryPtr) state ≠ 0 then
          [.carry] else [], endStr⟩ := by
  unfold reportCarry
  simp only [stored]
  split
  · rename_i unsupported
    have entry := Entry.eq_of_offset unsupported
    subst entry
    exact ⟨_, rfl⟩
  · split
    · rename_i same
      have entry := Entry.eq_of_offset same
      subst entry
      rw [evaluateFlag_callback rfl highLevel.carry highLevel.context stored,
        listHighLevel_same]
      exact ⟨"", by simp⟩
    · rename_i different
      have notHighLevel : carry ≠ .highLevelCarry := by
        rintro rfl
        exact different rfl
      exact ⟨"", by simp [notHighLevel]⟩

/-- The overflow flag is never listed, as no operation of the carry flag is the
one for a callback of the overflow flag. -/
theorem reportOverflow_eq
    (isCarry : carry.IsCarry)
    (stored : fields state .carryOperation = carry.offset.setWidth 64)
    (endStr : String) :
    ∃ after,
      reportOverflow runtime callback text tempContext link state endStr =
        some ⟨[], after⟩ := by
  unfold reportOverflow
  simp only [stored]
  split
  · exact ⟨_, rfl⟩
  · rw [if_neg]
    · exact ⟨_, rfl⟩
    · intro same
      have entry := Entry.eq_of_offset same
      rw [entry] at isCarry
      exact isCarry

/-- When a flag is listed. -/
theorem lists_iff
    (highLevel : HighLevelRoutines runtime callback)
    (isCarry : carry.IsCarry)
    (stored : fields state .carryOperation = carry.offset.setWidth 64)
    (flag : Flag) :
    Lists runtime callback text tempContext link state flag ↔
      match flag with
      | .zero => fields state .zeroValue = 0
      | .sign => fields state .signValue >>>
          shiftAmount (fields state .signSize) = 1
      | .parity => evenParity (fields state .parityValue) = true
      | .carry => carry = .highLevelCarry ∧
          callback (fields state .carryPtr) state ≠ 0
      | .overflow => False := by
  obtain ⟨endStr, carryReport⟩ := @reportCarry_eq runtime callback text
    tempContext link state carry highLevel stored
  obtain ⟨after, overflowReport⟩ := @reportOverflow_eq runtime callback text
    tempContext link state carry isCarry stored endStr
  have parity := foldParity_eq_zero_iff (fields state .parityValue)
  cases flag <;>
    simp [Lists, flagReport, carryReport, overflowReport, ← parity]

/-- The operation that evaluates the flag is not supported. -/
def Unsupported (carry overflow : Entry) : Flag -> Prop
  | .carry => carry = .unsupportedCarry
  | .overflow => overflow = .unsupportedOverflow
  | _ => False

/-- Nothing is stored above a sign bit that is set, a routine for the carry or
the overflow flag does not find the flag, a callback for the carry flag returns
zero or one, and one for the overflow flag does not return one. -/
structure PrintsRight
    (callback : Callback)
    (carry overflow : Entry)
    (state : State) : Prop where
  signAlone : (fields state .signValue).getLsbD
      (shiftAmount (fields state .signSize)) = true ->
    ∀ index, shiftAmount (fields state .signSize) < index ->
      (fields state .signValue).getLsbD index = false
  carryAbsent : carry.carryFlag (fields state .carryFirst)
    (fields state .carrySecond) ≠ some true
  carryCallback : carry = .highLevelCarry ->
    callback (fields state .carryPtr) state ≠ 0 ->
    callback (fields state .carryPtr) state = 1
  overflowAbsent : overflow.overflowFlag (fields state .overflowFirst)
    (fields state .overflowSecond) ≠ some true
  overflowCallback : overflow = .highLevelOverflow ->
    callback (fields state .overflowPtr) state ≠ 1

/-- The list agrees with the guest code about a flag. -/
def AgreesOn
    (runtime : Runtime)
    (callback : Callback)
    (text : Word -> String)
    (tempContext link : Word)
    (env : Environment)
    (state : State)
    (flag : Flag) : Prop :=
  Lists runtime callback text tempContext link state flag ↔
    Yields (dispatch runtime env) (Instruction.evaluate flag) state 1

section Flags

variable (permits : env.PermitsEverything) (aligned : TableAligned state)
variable (highLevel : HighLevelRoutines runtime callback)
variable (isCarry : carry.IsCarry) (isOverflow : overflow.IsOverflow)
variable (carryStored : fields state .carryOperation =
  carry.offset.setWidth 64)
variable (overflowStored : fields state .overflowOperation =
  overflow.offset.setWidth 64)

include permits aligned

theorem yields_evaluated
    {flag : Flag}
    {value : Bool}
    (evaluated : EvaluatedFlag (fields state) flag value) :
    Yields (dispatch runtime env) (Instruction.evaluate flag) state 1 ↔
      value = true :=
  yields_one_iff (evaluates_of_evaluatedFlag permits aligned evaluated)

include highLevel isCarry carryStored

theorem agreesOn_zero :
    AgreesOn runtime callback text tempContext link env state .zero := by
  have evaluated : EvaluatedFlag (fields state) .zero
      (fields state .zeroValue == 0) := rfl
  rw [AgreesOn, lists_iff highLevel isCarry carryStored,
    yields_evaluated permits aligned evaluated, beq_iff_eq]

theorem agreesOn_parity :
    AgreesOn runtime callback text tempContext link env state .parity := by
  have evaluated : EvaluatedFlag (fields state) .parity
      (evenParity (fields state .parityValue)) := rfl
  rw [AgreesOn, lists_iff highLevel isCarry carryStored,
    yields_evaluated permits aligned evaluated]

theorem agreesOn_sign_iff :
    AgreesOn runtime callback text tempContext link env state .sign ↔
      ((fields state .signValue).getLsbD
          (shiftAmount (fields state .signSize)) = true ->
        ∀ index, shiftAmount (fields state .signSize) < index ->
          (fields state .signValue).getLsbD index = false) := by
  have evaluated : EvaluatedFlag (fields state) .sign
      ((fields state .signValue).getLsbD
        (shiftAmount (fields state .signSize))) := rfl
  rw [AgreesOn, lists_iff highLevel isCarry carryStored,
    yields_evaluated permits aligned evaluated]
  simp only [shiftRight_eq_one_iff]
  exact and_iff_left_iff_imp

theorem agreesOn_carry_iff :
    (carry ≠ .unsupportedCarry ->
      AgreesOn runtime callback text tempContext link env state .carry) ↔
      carry.carryFlag (fields state .carryFirst)
          (fields state .carrySecond) ≠ some true ∧
        (carry = .highLevelCarry ->
          callback (fields state .carryPtr) state ≠ 0 ->
          callback (fields state .carryPtr) state = 1) := by
  rw [AgreesOn, lists_iff highLevel isCarry carryStored]
  obtain ⟨flag, value⟩ | rfl | rfl := isCarry.cases
    (fields state .carryFirst) (fields state .carrySecond)
  · have supported : carry ≠ .unsupportedCarry := by
      rintro rfl
      cases value
    have notHighLevel : carry ≠ .highLevelCarry := by
      rintro rfl
      cases value
    have evaluated : EvaluatedFlag (fields state) .carry flag :=
      ⟨carry, carryStored, value⟩
    rw [yields_evaluated permits aligned evaluated, value]
    simp [supported, notHighLevel]
  · simp [Entry.carryFlag]
  · have yields := @yields_callback runtime callback env state
      .highLevelCarry .highLevelCarry .carryPtr
      (carryOperationOffset.setWidth 16) permits aligned rfl highLevel.carry
      highLevel.context carryStored
    have one := yields.iff_eq 1
    generalize callback (fields state .carryPtr) state = value at one ⊢
    have notZero : value = 1 -> value ≠ 0 := by
      rintro rfl
      decide
    rw [show Yields (dispatch runtime env) (Instruction.evaluate .carry) state
      1 ↔ value = 1 from one]
    simp only [ne_eq, reduceCtorEq, not_false_eq_true, true_implies, true_and,
      Entry.carryFlag]
    exact ⟨Iff.mp, fun forward => ⟨forward, notZero⟩⟩

include isOverflow overflowStored

theorem agreesOn_overflow_iff :
    (overflow ≠ .unsupportedOverflow ->
      AgreesOn runtime callback text tempContext link env state .overflow) ↔
      overflow.overflowFlag (fields state .overflowFirst)
          (fields state .overflowSecond) ≠ some true ∧
        (overflow = .highLevelOverflow ->
          callback (fields state .overflowPtr) state ≠ 1) := by
  rw [AgreesOn, lists_iff highLevel isCarry carryStored]
  obtain ⟨flag, value⟩ | rfl | rfl := isOverflow.cases
    (fields state .overflowFirst) (fields state .overflowSecond)
  · have supported : overflow ≠ .unsupportedOverflow := by
      rintro rfl
      cases value
    have notHighLevel : overflow ≠ .highLevelOverflow := by
      rintro rfl
      cases value
    have evaluated : EvaluatedFlag (fields state) .overflow flag :=
      ⟨overflow, overflowStored, value⟩
    rw [yields_evaluated permits aligned evaluated, value]
    simp [supported, notHighLevel]
  · simp [Entry.overflowFlag]
  · have yields := @yields_callback runtime callback env state
      .highLevelOverflow .highLevelOverflow .overflowPtr
      (overflowOperationOffset.setWidth 16) permits aligned rfl
      highLevel.overflow highLevel.context overflowStored
    rw [show Yields (dispatch runtime env) (Instruction.evaluate .overflow)
      state 1 ↔ callback (fields state .overflowPtr) state = 1 from
        yields.iff_eq 1]
    simp [Entry.overflowFlag]

end Flags

/-- `print_flags` lists what the guest code evaluates under exactly these
conditions. -/
theorem printFlags_agrees_iff
    (permits : env.PermitsEverything)
    (aligned : TableAligned state)
    (highLevel : HighLevelRoutines runtime callback)
    (isCarry : carry.IsCarry)
    (isOverflow : overflow.IsOverflow)
    (carryStored : fields state .carryOperation = carry.offset.setWidth 64)
    (overflowStored : fields state .overflowOperation =
      overflow.offset.setWidth 64) :
    (∀ flag, ¬ Unsupported carry overflow flag ->
      AgreesOn runtime callback text tempContext link env state flag) ↔
      PrintsRight callback carry overflow state := by
  have signIff := @agreesOn_sign_iff runtime callback text tempContext link env
    state carry permits aligned highLevel isCarry carryStored
  have carryIff := @agreesOn_carry_iff runtime callback text tempContext link
    env state carry permits aligned highLevel isCarry carryStored
  have overflowIff := @agreesOn_overflow_iff runtime callback text tempContext
    link env state carry overflow permits aligned highLevel isCarry isOverflow
    carryStored overflowStored
  constructor
  · intro agrees
    obtain ⟨carryAbsent, carryCallback⟩ := carryIff.1 (agrees .carry)
    obtain ⟨overflowAbsent, overflowCallback⟩ :=
      overflowIff.1 (agrees .overflow)
    exact ⟨signIff.1 (agrees .sign id), carryAbsent, carryCallback,
      overflowAbsent, overflowCallback⟩
  · intro right flag supported
    cases flag with
    | zero => exact agreesOn_zero permits aligned highLevel isCarry carryStored
    | parity =>
        exact agreesOn_parity permits aligned highLevel isCarry carryStored
    | sign => exact signIff.2 right.signAlone
    | carry =>
        exact carryIff.2 ⟨right.carryAbsent, right.carryCallback⟩ supported
    | overflow =>
        exact overflowIff.2 ⟨right.overflowAbsent, right.overflowCallback⟩
          supported

end Agreement

/-! ## Examples -/

/-- A runtime whose callbacks return zero. -/
def zeroRuntime : Runtime
  | .highLevelCarry, state | .highLevelOverflow, state => some (state.set .t4 0)
  | _, _ => none

theorem zeroRuntime_highLevelRoutines :
    HighLevelRoutines zeroRuntime fun _ _ => 0 where
  carry called := ⟨called.set .t4 0, rfl, rfl⟩
  overflow called := ⟨called.set .t4 0, rfl, rfl⟩
  context _ _ _ _ _ := rfl

/-- The state in which the guest starts, but for the operation of the carry
flag. -/
def flagState (carry : Entry) : State where
  regs
    | .s10 => 0x2000
    | .s11 => 0x1000
    | _ => 0
  mem address :=
    if address = 0x1242 then carry.offset.setWidth 8
    else if address = 0x1240 then Entry.overflowClear.offset.setWidth 8
    else if address = 0x1200 ∨ address = 0x1245 then 1
    else 0

/-- At the start the list is right about the sign, carry and overflow flags. -/
theorem printFlags_agrees_iff_start :
    AgreesOn zeroRuntime (fun _ _ => 0) (fun _ => "") 0 0 Stub.environment
        (flagState .carryClear) .sign ∧
      AgreesOn zeroRuntime (fun _ _ => 0) (fun _ => "") 0 0 Stub.environment
        (flagState .carryClear) .carry ∧
      AgreesOn zeroRuntime (fun _ _ => 0) (fun _ => "") 0 0 Stub.environment
        (flagState .carryClear) .overflow := by
  have right : PrintsRight (fun _ _ => 0) .carryClear .overflowClear
      (flagState .carryClear) :=
    { signAlone := fun set => absurd set (by decide +kernel)
      carryAbsent := by simp [Entry.carryFlag]
      carryCallback := by simp
      overflowAbsent := by simp [Entry.overflowFlag]
      overflowCallback := by simp }
  have isCarry : Entry.IsCarry .carryClear := trivial
  have isOverflow : Entry.IsOverflow .overflowClear := trivial
  have agrees := (@printFlags_agrees_iff zeroRuntime (fun _ _ => 0)
    (fun _ => "") 0 0 Stub.environment (flagState .carryClear) .carryClear
    .overflowClear (fun _ _ => rfl) (by decide +kernel)
    zeroRuntime_highLevelRoutines isCarry isOverflow (by decide +kernel)
    (by decide +kernel)).2 right
  refine ⟨agrees .sign ?_, agrees .carry ?_, agrees .overflow ?_⟩ <;>
    simp [Unsupported]

/-- A carry flag that is set is not listed. -/
theorem printFlags_omits_carry :
    Yields (dispatch zeroRuntime Stub.environment)
        (Instruction.evaluate .carry) (flagState .carrySet) 1 ∧
      ¬ Lists zeroRuntime (fun _ _ => 0) (fun _ => "") 0 0
        (flagState .carrySet) .carry := by
  have stored : fields (flagState .carrySet) .carryOperation =
      Entry.carrySet.offset.setWidth 64 := by decide +kernel
  have evaluated : EvaluatedFlag (fields (flagState .carrySet)) .carry true :=
    ⟨.carrySet, stored, rfl⟩
  refine ⟨(yields_evaluated (fun _ _ => rfl) (by decide +kernel)
    evaluated).2 rfl, ?_⟩
  have isCarry : Entry.IsCarry .carrySet := trivial
  rw [lists_iff zeroRuntime_highLevelRoutines isCarry stored]
  rintro ⟨highLevel, -⟩
  cases highLevel

end Debugger
end Oxtra

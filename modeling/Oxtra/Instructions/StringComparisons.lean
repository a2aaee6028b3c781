import Oxtra.Instruction.Lengths
import Oxtra.Instructions.Comparison
import Oxtra.Instructions.Repetitions
import Oxtra.Library.EarlyExit

/-!
# Repetitions of string comparisons

The loop of a string comparison makes as many comparisons as on x86, and leaves
the flags of the last one, with the operands of the overflow in another order.
-/

namespace Oxtra

open RiscV
open Encoding
open Helper
open FlagInfo
open Wrapped
open Fadec (Operand OperandSize)

namespace RepeatableFlag

open Instruction (loadOperand loadOperand_eq operandLoad evaluate
  resultContents evaluated_result carrySlots overflowSlots mem_updateFlags
  UpdatesFields)
open Repeatable (stride element element_zero SameBesideCount advance_apply
  loadElement_eval)

/-! ## One comparison -/

/-- Where the first operand of a comparison is.  `SCAS` has it in the
accumulator, and `CMPS` reads it in a segment with this base. -/
structure FirstOperand where
  accumulator : Word
  base : Word

section Operands

variable (inst : Instruction)

/-- The first operand of a comparison. -/
def first (operand : FirstOperand) (state : State) :
    RepeatableFlag -> BitVec inst.operandSize.bits
  | cmps => (element inst operand.base state).setWidth inst.operandSize.bits
  | scas => operand.accumulator.setWidth inst.operandSize.bits

/-- The second operand of a comparison. -/
def second (state : State) : BitVec inst.operandSize.bits :=
  (state.mem.load (state.get rdi) inst.operandSize.bytes).setWidth
    inst.operandSize.bits

/-- A comparison advances the pointers to its operands. -/
def advanced : RepeatableFlag -> State -> State
  | cmps, state =>
      (state.set rsi (state.get rsi + stride inst)).set rdi
        (state.get rdi + stride inst)
  | scas, state => state.set rdi (state.get rdi + stride inst)

/-- A comparison is the last one if the elements differ, or if they are the
same. -/
def stops (operation : RepeatableFlag) (operand : FirstOperand) (state : State) :
    Prop :=
  if inst.hasRep then
    first inst operand state operation ≠ second inst state
  else
    first inst operand state operation = second inst state

instance (operation : RepeatableFlag) (operand : FirstOperand) :
    DecidablePred (stops inst operation operand) := by
  intro state
  unfold stops
  infer_instance

/-- The comparison is repeated. -/
def prefixed : Bool := inst.hasRep || inst.hasRepnz

/-- The number of comparisons on x86. -/
def comparisons
    (operation : RepeatableFlag)
    (operand : FirstOperand)
    (state : State) : Nat :=
  if prefixed inst then
    EarlyExit.passes (stops inst operation operand)
      (advanced inst operation) (state.get rcx).toNat state
  else
    1

/-- The state of x86 in front of a comparison. -/
def reached (operation : RepeatableFlag) (state : State) (count : Nat) :
    State :=
  (advanced inst operation)^[count] state

end Operands

section Advance

variable (inst : Instruction) (operation : RepeatableFlag)

theorem advanced_mem (state : State) :
    (advanced inst operation state).mem = state.mem := by
  cases operation <;> rfl

theorem advanced_get
    (state : State)
    {register : Register}
    (notSource : register ≠ rsi)
    (notDestination : register ≠ rdi) :
    (advanced inst operation state).get register = state.get register := by
  cases operation with
  | cmps =>
      rw [advanced, State.set_get_of_ne _ _ notDestination,
        State.set_get_of_ne _ _ notSource]
  | scas => rw [advanced, State.set_get_of_ne _ _ notDestination]

theorem reached_mem (state : State) (count : Nat) :
    (reached inst operation state count).mem = state.mem := by
  induction count with
  | zero => rfl
  | succ count inductionHypothesis =>
      rw [reached, Function.iterate_succ_apply', advanced_mem]
      exact inductionHypothesis

theorem reached_get
    (state : State)
    {register : Register}
    (notSource : register ≠ rsi)
    (notDestination : register ≠ rdi)
    (count : Nat) :
    (reached inst operation state count).get register =
      state.get register := by
  induction count with
  | zero => rfl
  | succ count inductionHypothesis =>
      rw [reached, Function.iterate_succ_apply',
        advanced_get inst operation _ notSource notDestination]
      exact inductionHypothesis

theorem advanced_congr
    {left right : State}
    (same : SameBesideCount left right) :
    SameBesideCount (advanced inst operation left)
      (advanced inst operation right) := by
  have source : left.get rsi = right.get rsi := same.registers 6 (by decide)
  have destination : left.get rdi = right.get rdi :=
    same.registers 7 (by decide)
  cases operation with
  | cmps =>
      simp only [advanced, source, destination]
      exact (same.set _ _).set _ _
  | scas =>
      simp only [advanced, destination]
      exact same.set _ _

/-- The operands do not depend on the count. -/
theorem first_congr
    (operand : FirstOperand)
    {left right : State}
    (same : SameBesideCount left right) :
    first inst operand left operation =
      first inst operand right operation := by
  have source : left.get rsi = right.get rsi := same.registers 6 (by decide)
  cases operation with
  | cmps =>
      simp only [first, element, source, same.memory]
  | scas => rfl

theorem second_congr
    {left right : State}
    (same : SameBesideCount left right) :
    second inst left = second inst right := by
  have destination : left.get rdi = right.get rdi :=
    same.registers 7 (by decide)
  rw [second, second, destination, same.memory]

end Advance

/-! ## The code of a comparison -/

section Execute

variable {inst : Instruction} (operation : RepeatableFlag)
variable {operand : FirstOperand} (noBase : operand.base = 0)

/-- The register for the first operand of `SCAS` has been loaded. -/
def Loaded
    (inst : Instruction)
    (operation : RepeatableFlag)
    (operand : FirstOperand)
    (state : State) : Prop :=
  operation = scas ->
    state.get dstReg =
      (operand.accumulator.setWidth inst.operandSize.bits).setWidth 64

/-- The registers behind a comparison of two operands. -/
structure Compared
    (inst : Instruction)
    (left right : BitVec inst.operandSize.bits)
    (state : State) : Prop where
  dst : state.get dstReg = left.setWidth 64
  src : state.get srcReg = right.setWidth 64
  diff : state.get diffReg = left.setWidth 64 - right.setWidth 64

include noBase

/-- The code of a comparison compares the operands as words without a sign. -/
theorem execute_spec
    (pc : Word)
    {state : State}
    (loaded : Loaded inst operation operand state) :
    let executed := applyAll pc state (operation.execute inst.operandSize)
    SameBesideCount executed (advanced inst operation state) ∧
      executed.get rcx = state.get rcx ∧
      Compared inst (first inst operand state operation)
        (second inst state) executed := by
  have zero : signedImm (0 : BitVec 16) = 0 := by decide
  have apart : dstReg ≠ srcReg ∧ rsi ≠ dstReg ∧ rsi ≠ srcReg ∧
      rsi ≠ diffReg ∧ rdi ≠ dstReg ∧ rdi ≠ srcReg ∧ rdi ≠ diffReg ∧
        rdi ≠ rsi := by decide
  have temporaries : dstReg ≠ srcReg ∧ dstReg ≠ diffReg ∧ dstReg ≠ rsi ∧
      dstReg ≠ rdi ∧ srcReg ≠ diffReg ∧ srcReg ≠ rsi ∧ srcReg ≠ rdi ∧
        diffReg ≠ rsi ∧ diffReg ≠ rdi := by decide
  have nonzero : dstReg ≠ .zero ∧ srcReg ≠ .zero ∧ diffReg ≠ .zero := by
    decide
  have truncated : (second inst state).setWidth 64 =
      state.mem.load (state.get rdi) inst.operandSize.bytes :=
    Instruction.load_truncated _ _ _
  have hidden : ∀ {register : Register}, isGuest register = false ->
      isGuest register = false ∨ register = rcx := Or.inl
  have count : rcx ≠ dstReg ∧ rcx ≠ srcReg ∧ rcx ≠ diffReg ∧ rcx ≠ rsi ∧
      rcx ≠ rdi := by decide
  have same := SameBesideCount.refl state
  intro executed
  let right := (second inst state).setWidth 64
  cases operation with
  | cmps =>
      let left := state.mem.load (state.get rsi) inst.operandSize.bytes
      have applied : executed = ((((state.set dstReg left).set srcReg
          right).set diffReg (left - right)).set rsi
            (state.get rsi + stride inst)).set rdi
              (state.get rdi + stride inst) := by
        simp only [executed, execute, cmpsOperation, loadOperand_eq,
          applyAll_cons, applyAll_nil, apply_load, apply_sub, advance_apply,
          loadElement_eval, zero, add_zero, State.set_get_of_ne, State.set_get_self, State.set_mem, apart,
          nonzero, right, left, truncated, ne_eq, not_false_eq_true]
      have word : (first inst operand state cmps).setWidth 64 = left := by
        rw [first, noBase, element_zero]
        exact Instruction.load_truncated _ _ _
      rw [applied]
      refine ⟨?_, ?_, ?_, ?_, ?_⟩
      · exact (((same.set_left (hidden (by decide)) (by decide) _).set_left
          (hidden (by decide)) (by decide) _).set_left (hidden (by decide))
            (by decide) _ |>.set _ _).set _ _
      · simp only [State.set_get_of_ne, count, ne_eq, not_false_eq_true]
      · rw [word]
        simp only [State.set_get_of_ne, State.set_get_self, temporaries,
          nonzero, ne_eq, not_false_eq_true]
      · simp only [State.set_get_of_ne, State.set_get_self, temporaries,
          nonzero, ne_eq, not_false_eq_true, right]
      · rw [word]
        simp only [State.set_get_of_ne, State.set_get_self, temporaries,
          nonzero, ne_eq, not_false_eq_true, right]
  | scas =>
      have applied : executed = ((state.set srcReg right).set diffReg
          (state.get dstReg - right)).set rdi
            (state.get rdi + stride inst) := by
        simp only [executed, execute, scasOperation, loadOperand_eq,
          applyAll_cons, applyAll_nil, apply_load, apply_sub, advance_apply,
          loadElement_eval, zero, add_zero, State.set_get_of_ne,
          State.set_get_self, apart, nonzero, right, truncated, ne_eq,
          not_false_eq_true]
      have word : state.get dstReg =
          (first inst operand state scas).setWidth 64 := loaded rfl
      rw [applied]
      refine ⟨?_, ?_, ?_, ?_, ?_⟩
      · exact ((same.set_left (hidden (by decide)) (by decide) _).set_left
          (hidden (by decide)) (by decide) _).set _ _
      · simp only [State.set_get_of_ne, count, ne_eq, not_false_eq_true]
      · rw [← word]
        simp only [State.set_get_of_ne, temporaries, ne_eq, not_false_eq_true]
      · simp only [State.set_get_of_ne, State.set_get_self, temporaries,
          nonzero, ne_eq, not_false_eq_true, right]
      · rw [← word]
        simp only [State.set_get_of_ne, State.set_get_self, temporaries,
          nonzero, ne_eq, not_false_eq_true, right]

omit noBase in
/-- The code of a comparison is short and has no jumps. -/
theorem execute_straight :
    ∀ size, (∀ written ∈ operation.execute size, written.isStraight = true) ∧
      (operation.execute size).length < 8 := by
  cases operation <;> intro size <;> cases size <;> decide

/-! ## The loop -/

/-- One pass of the loop in front of its branches. -/
def pass (inst : Instruction) (operation : RepeatableFlag) : List Inst :=
  addi rcx rcx (-1) :: operation.execute inst.operandSize

/-- The state behind a pass. -/
def passed
    (inst : Instruction)
    (operation : RepeatableFlag)
    (pc : Word)
    (state : State) : State :=
  applyAll pc state (pass inst operation)

/-- A pass counts down and makes one comparison. -/
theorem passed_spec
    (pc : Word)
    {state : State}
    (loaded : Loaded inst operation operand state) :
    SameBesideCount (passed inst operation pc state)
        (advanced inst operation state) ∧
      (passed inst operation pc state).get rcx = state.get rcx - 1 ∧
      Compared inst (first inst operand state operation)
        (second inst state) (passed inst operation pc state) := by
  have one : signedImm (-1 : BitVec 16) = -1 := by decide
  let counted := state.set rcx (state.get rcx - 1)
  have code : passed inst operation pc state =
      applyAll (pc + 4) counted (operation.execute inst.operandSize) := by
    simp only [passed, pass, counted]
    rw [applyAll_cons, apply_addi, one, sub_eq_add_neg]
  have same : SameBesideCount counted state :=
    (SameBesideCount.refl state).set_left (Or.inr rfl) (by decide) _
  have countedLoaded : Loaded inst operation operand counted := by
    intro isScas
    rw [State.set_get_of_ne _ _ (by decide)]
    exact loaded isScas
  obtain ⟨advances, count, compared⟩ :=
    execute_spec operation noBase (pc + 4) countedLoaded
  rw [code]
  refine ⟨advances.trans (advanced_congr inst operation same), ?_, ?_⟩
  · rw [count, State.set_get_self _ _ (by decide)]
  · rw [← first_congr inst operation operand same,
      ← second_congr inst same]
    exact compared

omit noBase in
theorem Compared.loaded
    {state before : State}
    (compared : Compared inst (first inst operand before operation)
      (second inst before) state) :
    Loaded inst operation operand state := by
  rintro rfl
  exact compared.dst

/-- Some passes count down and advance as often. -/
theorem iterate_passed
    (pc : Word)
    {state : State}
    (loaded : Loaded inst operation operand state)
    (count : Nat) :
    SameBesideCount ((passed inst operation pc)^[count] state)
        (reached inst operation state count) ∧
      ((passed inst operation pc)^[count] state).get rcx =
        state.get rcx - BitVec.ofNat 64 count ∧
      Loaded inst operation operand
        ((passed inst operation pc)^[count] state) := by
  induction count with
  | zero => exact ⟨SameBesideCount.refl _, by simp, loaded⟩
  | succ count inductionHypothesis =>
      obtain ⟨same, counted, before⟩ := inductionHypothesis
      obtain ⟨next, left, compared⟩ := passed_spec operation noBase pc before
      rw [reached, Function.iterate_succ_apply', Function.iterate_succ_apply']
      refine ⟨next.trans (advanced_congr inst operation same), ?_,
        compared.loaded⟩
      rw [left, counted, BitVec.ofNat_add, sub_sub]
      rfl

/-- The registers behind a pass are those of its comparison. -/
theorem compared_iterate
    (pc : Word)
    {state : State}
    (loaded : Loaded inst operation operand state)
    (count : Nat) :
    Compared inst
      (first inst operand (reached inst operation state count) operation)
      (second inst (reached inst operation state count))
      ((passed inst operation pc)^[count + 1] state) := by
  obtain ⟨same, -, before⟩ := iterate_passed operation noBase pc loaded
    count
  obtain ⟨-, -, compared⟩ := passed_spec operation noBase pc before
  rw [Function.iterate_succ_apply', ← first_congr inst operation operand
    same, ← second_congr inst same]
  exact compared

omit noBase in
/-- The register for the table is not used by a pass. -/
theorem pass_target :
    ∀ written ∈ pass inst operation,
      written.target ≠ some jumpTableAddress := by
  cases operation <;> cases size : inst.operandSize <;>
    simp only [pass, execute, size] <;> decide

omit noBase in
theorem iterate_passed_table (pc : Word) (state : State) (count : Nat) :
    ((passed inst operation pc)^[count] state).get jumpTableAddress =
      state.get jumpTableAddress := by
  induction count with
  | zero => rfl
  | succ count inductionHypothesis =>
      rw [Function.iterate_succ_apply', passed,
        applyAll_get_of_not_target _ _ (pass_target operation),
        inductionHypothesis]

/-- The branch that leaves the loop. -/
def leaveKind (inst : Instruction) : Branch :=
  if inst.hasRep then .bne else .beq

omit noBase in
/-- The branch tests whether the operands differ. -/
theorem Compared.leaves_iff
    {left right : BitVec inst.operandSize.bits}
    {state : State}
    (compared : Compared inst left right state) :
    (leaveKind inst).eval (state.get diffReg) (state.get .zero) = true ↔
      if inst.hasRep then left ≠ right else left = right := by
  have equal : left.setWidth 64 - right.setWidth 64 = 0 ↔ left = right := by
    rw [sub_eq_zero]
    constructor
    · intro same
      have numbers := congrArg BitVec.toNat same
      rw [BitVec.toNat_setWidth_of_le inst.operandSize.bits_le,
        BitVec.toNat_setWidth_of_le inst.operandSize.bits_le] at numbers
      exact BitVec.eq_of_toNat_eq numbers
    · exact congrArg _
  rw [compared.diff, State.get_zero, leaveKind]
  split
  · simpa [Branch.eval] using not_congr equal
  · simpa [Branch.eval] using equal

omit noBase in
/-- The state of x86 in front of the next comparison. -/
theorem reached_succ (state : State) (count : Nat) :
    reached inst operation state (count + 1) =
      advanced inst operation (reached inst operation state count) :=
  Function.iterate_succ_apply' _ _ _

/-- The loop makes as many passes as there are comparisons. -/
theorem loop_exits
    {env : Environment}
    (permits : env.PermitsEverything)
    {state : State}
    (loaded : Loaded inst operation operand state)
    (repeats : prefixed inst = true)
    (positive : state.get rcx ≠ 0) :
    env.Exits (loop (operation.execute inst.operandSize)
        (if inst.hasRep then bnqz else beqz)) state
      (.ended ((passed inst operation env.origin)^[
        comparisons inst operation operand state] state)) := by
  let next := passed inst operation env.origin
  let leave : Inst := .branch (leaveKind inst) diffReg .zero
    ((8 : BitVec 32).extractLsb' 1 12)
  let body := pass inst operation ++ [leave]
  have code : loop (operation.execute inst.operandSize)
      (if inst.hasRep then bnqz else beqz) =
        pass inst operation ++ [leave, branchBack (bnqz rcx) body] := by
    simp only [loop, pass, body, leave, leaveKind]
    split <;> rfl
  obtain ⟨straight, short⟩ := execute_straight operation inst.operandSize
  have passStraight : ∀ written ∈ pass inst operation,
      written.isStraight = true := by
    simp only [pass, List.forall_mem_cons]
    exact ⟨rfl, straight⟩
  have ends : ∀ before, env.Exits (pass inst operation) before
      (.ended (next before)) :=
    fun before => Environment.exits_straight passStraight
      (permits.permitsAll before _)
  have length : body.length ≤ 1024 := by
    simp only [body, pass, List.length_append, List.length_cons,
      List.length_nil]
    omega
  have reach := branchBack_reach length
  have counted := fun count =>
    (iterate_passed operation noBase env.origin loaded count).2.1
  have leaves := fun count => (compared_iterate operation noBase
    env.origin loaded count).leaves_iff
  have nonzero : (state.get rcx).toNat ≠ 0 := fun zero =>
    positive (BitVec.eq_of_toNat_eq zero)
  obtain ⟨last, total, inside, before, exits⟩ :=
    @EarlyExit.passes_spec _ (stops inst operation operand) _
      (advanced inst operation) _ nonzero state
  have bound := (state.get rcx).isLt
  have offset : ((8 : BitVec 32).extractLsb' 1 12).toInt = 2 * (1 + 1) := by
    decide
  have continues : ∀ count, ¬ stops inst operation operand
      (reached inst operation state count) ->
        ¬ (leaveKind inst).eval ((next^[count + 1] state).get diffReg)
          ((next^[count + 1] state).get .zero) = true :=
    fun count => mt (leaves count).mp
  rw [comparisons, if_pos repeats, total, code]
  refine @Environment.exits_iterate env _ next _ last state
    (fun count less => ?_) ?_
  · have passes := ends (next^[count] state)
    rw [← Function.iterate_succ_apply' next] at passes
    have behind : (env.shift (pass inst operation).length).Exits
        [leave] (next^[count + 1] state) (.ended (next^[count + 1] state)) :=
      Environment.exits_branch_skipped (permits.shift _)
        (continues count (before count less)) ⟨1, rfl⟩ (by simp)
    have again : Branch.bne.eval ((next^[count + 1] state).get rcx)
        ((next^[count + 1] state).get .zero) = true := by
      rw [Repeatable.again_iff, counted]
      intro zero
      have numbers := congrArg BitVec.toNat (sub_eq_zero.mp zero)
      rw [BitVec.toNat_ofNat, Nat.mod_eq_of_lt (by omega)] at numbers
      omega
    have runs := Environment.run_branch_back permits
      (passes.append behind (by simp)) again reach
    rw [List.append_assoc] at runs
    exact runs
  · have passes := ends (next^[last] state)
    rw [← Function.iterate_succ_apply' next] at passes
    refine passes.append ?_ (by simp)
    by_cases stopped : stops inst operation operand
        (reached inst operation state last)
    · exact Environment.exits_branch_taken (permits.shift _)
        ((leaves last).mpr stopped) offset
    · refine Environment.exits_branch_skipped (permits.shift _)
        (continues last stopped) ?_ (by simp)
      refine Environment.exits_branch_skipped ((permits.shift _).shift _) ?_
        ⟨1, rfl⟩ (by simp)
      have all := exits.resolve_left stopped
      rw [Repeatable.again_iff, counted, not_not, Nat.succ_eq_add_one, all,
        BitVec.ofNat_toNat, BitVec.setWidth_eq, sub_self]

end Execute

/-! ## Flags of a comparison -/

/-- The flags that are evaluated behind a comparison.  The overflow is that of
the second operand minus the first one. -/
def comparedFlags {bits : Nat} (first second : BitVec bits) : Flag -> Bool :=
  resultFlags (first - second) (first.toNat < second.toNat)
    (¬ Fits bits (second.toInt - first.toInt))

/-- The difference from one operand has the flags of the difference from
another one, but for its overflow, which is that of the other order. -/
structure DiffersAlike {bits : Nat} (without within second : BitVec bits) :
    Prop where
  zero : without = second ↔ within = second
  sign : (without - second).msb = (within - second).msb
  parity : evenParity ((without - second).setWidth 64) =
    evenParity ((within - second).setWidth 64)
  carry : without.toNat < second.toNat ↔ within.toNat < second.toNat
  overflow : Fits bits (second.toInt - without.toInt) ↔
    Fits bits (within.toInt - second.toInt)

theorem comparedFlags_eq_iff
    {bits : Nat}
    (without within second : BitVec bits) :
    comparedFlags without second = subtractionFlags within second ↔
      DiffersAlike without within second := by
  constructor
  · intro same
    have zero : ((without - second) == 0) = ((within - second) == 0) :=
      congrFun same .zero
    have carry : decide _ = decide _ := congrFun same .carry
    have overflow : decide _ = decide _ := congrFun same .overflow
    rw [Bool.eq_iff_iff, beq_iff_eq, beq_iff_eq, sub_eq_zero, sub_eq_zero]
      at zero
    exact ⟨zero, congrFun same .sign, congrFun same .parity,
      decide_eq_decide.mp carry, not_iff_not.mp (decide_eq_decide.mp overflow)⟩
  · intro alike
    funext flag
    cases flag with
    | zero =>
        change ((without - second) == 0) = ((within - second) == 0)
        rw [Bool.eq_iff_iff, beq_iff_eq, beq_iff_eq, sub_eq_zero, sub_eq_zero]
        exact alike.zero
    | sign => exact alike.sign
    | parity => exact alike.parity
    | carry => exact decide_eq_decide.mpr alike.carry
    | overflow => exact decide_eq_decide.mpr (not_congr alike.overflow)

/-- The overflow is that of the other order unless the difference is the
smallest number. -/
theorem differsAlike_self_iff
    {size : OperandSize}
    (first second : BitVec size.bits) :
    DiffersAlike first first second ↔
      first - second ≠ BitVec.intMin size.bits := by
  have positive := size.bits_pos
  have difference : (first - second).toInt =
      wrap size.bits (first.toInt - second.toInt) := BitVec.toInt_sub
  have same := fits_sub_comm_iff positive (fits_toInt size first)
    (fits_toInt size second)
  rw [← difference, ← BitVec.toInt_intMin_of_pos positive, ne_eq,
    BitVec.toInt_inj] at same
  rw [ne_eq, ← same]
  exact ⟨fun alike => alike.overflow, fun overflow =>
    ⟨Iff.rfl, rfl, rfl, Iff.rfl, overflow⟩⟩

section Updates

variable {inst : Instruction} {left right : BitVec inst.operandSize.bits}
variable {state : State}

theorem updateFlags_eq :
    updateFlags inst =
      inst.resultUpdates diffReg inst.operandSize .t3 ++
        (inst.updateCarry (some (.carryAdd inst.operandSize.width)) diffReg
            dstReg .t3 ++
          inst.updateOverflow (some (.overflowSub inst.operandSize.width))
            dstReg srcReg .t3) := by
  simp only [updateFlags, Instruction.resultUpdates, List.append_assoc]

theorem updateFlags_updates :
    Instruction.UpdatesFields [.t3] (updateFlags inst) := by
  rw [updateFlags_eq]
  exact Updates.append (inst.resultUpdates_updates _ _ _)
    (Updates.append (inst.updateCarry_updates _ _ _ _)
      (inst.updateOverflow_updates _ _ _ _))

/-- The flags behind the updates are those of the compared operands. -/
theorem updateFlags_evaluated
    (all : inst.updateFlags = Flags.all)
    (compared : Compared inst left right state)
    (pc : Word) :
    Evaluated (fields (applyAll pc state (updateFlags inst)))
      (comparedFlags left right) := by
  let size := inst.operandSize
  have difference : (left.setWidth 64 - right.setWidth 64).setWidth size.bits =
      left - right := by
    rw [setWidth_sub, setWidth_bits, setWidth_bits]
  have kept := fun register (other : register ∉ [Register.t3]) =>
    (inst.resultUpdates_updates diffReg size .t3).get pc state other
  have contents : fields (applyAll pc state (updateFlags inst)) =
      resultContents Flags.all (state.get diffReg) size
        (overflowSlots.write (some (.overflowSub size.width))
          (some (state.get dstReg)) (some (state.get srcReg))
          (carrySlots.write (some (.carryAdd size.width))
            (some (state.get diffReg)) (some (state.get dstReg))
            (fields state))) := by
    rw [updateFlags_eq, applyAll_append, inst.updateBoth_fields
        (mem_updateFlags all .carry) (mem_updateFlags all .overflow) _ _
        (fun _ => by decide) (fun _ => by decide) (by decide),
      inst.resultUpdates_fields _ _ (by decide) (by decide), all]
    simp only [Option.map_some]
    rw [kept _ (by decide), kept _ (by decide), kept _ (by decide)]
    funext field
    cases field <;> simp [size, resultContents, Instruction.Slots.write,
      overflowSlots, carrySlots]
  rw [contents, comparedFlags, ← difference, ← compared.diff]
  refine evaluated_result ⟨.carryAdd size.width, rfl, ?_⟩
    ⟨.overflowSub size.width, rfl, ?_⟩
  · change (JumpTable.Entry.carryAdd size.width).carryFlag
      (state.get diffReg) (state.get dstReg) = _
    simp only [JumpTable.Entry.carryFlag, unsignedPart_size, compared.diff,
      compared.dst, difference]
    rw [setWidth_bits]
    exact congrArg some (decide_eq_decide.mpr (lt_sub_iff left right))
  · change (JumpTable.Entry.overflowSub size.width).overflowFlag
      (state.get dstReg) (state.get srcReg) = _
    simp only [JumpTable.Entry.overflowFlag, signedPart_size, compared.src,
      compared.dst, OperandSize.width_bits, decide_not]
    rw [setWidth_bits, setWidth_bits]

end Updates

/-! ## Comparisons -/

/-- The instruction ends as on x86 with the comparisons one after the other, if
the first operand of `SCAS` is this and a comparison makes these flags. -/
structure Compares
    (runtime : JumpTable.Runtime)
    (inst : Instruction)
    (operation : RepeatableFlag)
    (operand : FirstOperand)
    (flags : BitVec inst.operandSize.bits -> BitVec inst.operandSize.bits ->
      Flag -> Bool)
    (state final : State) : Prop where
  count : final.get rcx =
    if prefixed inst then
      state.get rcx -
        BitVec.ofNat 64 (comparisons inst operation operand state)
    else
      state.get rcx
  registers : ∀ reg, mapReg reg ≠ rcx -> final.get (mapReg reg) =
    (reached inst operation state
      (comparisons inst operation operand state)).get (mapReg reg)
  memory : ∀ address,
    ¬ (0x200 ≤ (address - state.get contextAddress).toNat ∧
      (address - state.get contextAddress).toNat < Field.limit) ->
        final.mem address = state.mem address
  unchanged : comparisons inst operation operand state = 0 ->
    final.mem = state.mem ∧
      ∀ before, Evaluated (fields state) before ->
        ∀ later : Environment, later.PermitsEverything -> ∀ flag,
          Evaluates (JumpTable.dispatch runtime later) (evaluate flag) final
            (before flag)
  flags : ∀ last, comparisons inst operation operand state = last + 1 ->
    ∀ later : Environment, later.PermitsEverything -> ∀ flag,
      Evaluates (JumpTable.dispatch runtime later) (evaluate flag) final
        (flags
          (first inst operand (reached inst operation state last)
            operation)
          (second inst (reached inst operation state last)) flag)

section Congruence

variable {inst : Instruction} {operation : RepeatableFlag}
variable {state other : State} (same : SameBesideCount state other)
variable (count : state.get rcx = other.get rcx)

include same

theorem reached_congr (passes : Nat) :
    SameBesideCount (reached inst operation state passes)
      (reached inst operation other passes) := by
  induction passes with
  | zero => exact same
  | succ passes inductionHypothesis =>
      rw [reached_succ, reached_succ]
      exact advanced_congr inst operation inductionHypothesis

include count

/-- The comparisons depend on the first operand and on the guest only. -/
theorem comparisons_congr
    {operand compared : FirstOperand}
    (agree : ∀ reached, first inst operand reached operation =
      first inst compared reached operation) :
    comparisons inst operation operand state =
      comparisons inst operation compared other := by
  unfold comparisons
  split
  · rw [count]
    refine EarlyExit.passes_congr (fun left right related => ?_)
      (fun left right related => advanced_congr inst operation related) _ same
    rw [stops, stops, first_congr inst operation operand related,
      agree right, second_congr inst related]
  · rfl

/-- The guest, the number of comparisons and the flags of the last one decide
what an instruction ends with. -/
theorem Compares.congr
    {runtime : JumpTable.Runtime}
    {operand compared : FirstOperand}
    {flags expected : BitVec inst.operandSize.bits ->
      BitVec inst.operandSize.bits -> Flag -> Bool}
    {final : State}
    (compares : Compares runtime inst operation operand flags state final)
    (total : comparisons inst operation operand state =
      comparisons inst operation compared other)
    (flagsSame : ∀ last,
      comparisons inst operation operand state = last + 1 ->
        flags
            (first inst operand (reached inst operation state last)
              operation)
            (second inst (reached inst operation state last)) =
          expected
            (first inst compared (reached inst operation other last) operation)
            (second inst (reached inst operation other last))) :
    Compares runtime inst operation compared expected other final where
  count := by
    rw [compares.count, total, count]
  registers reg notCount := by
    rw [compares.registers reg notCount, total]
    exact (reached_congr same _).registers reg notCount
  memory address outside := by
    rw [compares.memory address (by rwa [same.context]), same.memory]
  unchanged none := by
    rw [← same.memory, ← fields_congr same.memory same.context]
    exact compares.unchanged (total.trans none)
  flags last positive := by
    rw [← flagsSame last (total.trans positive)]
    exact compares.flags last (total.trans positive)

end Congruence

/-! ## The code of the comparisons -/

section Generate

variable {inst : Instruction} (all : inst.updateFlags = Flags.all)
variable {operation : RepeatableFlag}
variable {operand : FirstOperand} (noBase : operand.base = 0)
variable {runtime : JumpTable.Runtime} {env : Environment}
variable {state : State} (aligned : TableAligned state)

include all aligned

/-- The updates behind the last comparison. -/
theorem compares_behind
    {last : Nat}
    (total : comparisons inst operation operand state = last + 1)
    {middle : State}
    (same : SameBesideCount middle (reached inst operation state (last + 1)))
    (table : middle.get jumpTableAddress = state.get jumpTableAddress)
    (count : middle.get rcx =
      if prefixed inst then state.get rcx - BitVec.ofNat 64 (last + 1)
      else state.get rcx)
    (compared : Compared inst
      (first inst operand (reached inst operation state last) operation)
      (second inst (reached inst operation state last)) middle)
    (pc : Word) :
    Compares runtime inst operation operand comparedFlags state
      (applyAll pc middle (updateFlags inst)) := by
  have updates := @updateFlags_updates inst
  have context : middle.get contextAddress = state.get contextAddress := by
    rw [same.context, reached_get _ _ _ (by decide) (by decide)]
  have kept : ∀ register, register ≠ .t3 ->
      (applyAll pc middle (updateFlags inst)).get register =
        middle.get register :=
    fun register other => updates.get _ _ (by simpa using other)
  constructor
  · rw [kept _ (by decide), count, total]
  · intro reg notCount
    rw [kept _ (ne_of_isGuest (isGuest_mapReg reg) (by decide)), total,
      same.registers reg notCount]
  · intro address outside
    rw [← context] at outside
    rw [updates.mem (by decide) (by decide) _ _ outside, same.memory,
      reached_mem]
  · intro none
    rw [total] at none
    cases none
  · intro before totalBefore later permits flag
    obtain rfl : last = before := by omega
    refine evaluates_of_evaluated permits ?_
      (updateFlags_evaluated all compared pc) flag
    rw [TableAligned, kept _ (by decide), table]
    exact aligned

omit all in
/-- Without a comparison nothing changes. -/
theorem compares_none
    (none : comparisons inst operation operand state = 0) :
    Compares runtime inst operation operand comparedFlags state state where
  count := by
    rw [none]
    split <;> simp
  registers reg _ := by
    rw [none]
    rfl
  memory _ _ := rfl
  unchanged _ := ⟨rfl, fun _ evaluated _ permits =>
    evaluates_of_evaluated permits aligned evaluated⟩
  flags last total := by
    rw [none] at total
    cases total

omit all aligned in
theorem updateFlags_length : (updateFlags inst).length ≤ 14 := by
  have zero := inst.updateZero_length diffReg inst.operandSize
  have sign := inst.updateSign_length diffReg inst.operandSize .t3
  have parity := inst.updateParity_length diffReg
  have carry := inst.updateOperation_length Instruction.carryFields
    (some (.carryAdd inst.operandSize.width)) diffReg dstReg .t3
  have overflow := inst.updateOperation_length Instruction.overflowFields
    (some (.overflowSub inst.operandSize.width)) dstReg srcReg .t3
  simp only [updateFlags, Instruction.updateCarry, Instruction.updateOverflow,
    List.length_append]
  omega

include noBase

/-- The loop of the comparisons, and the updates behind it. -/
theorem generateLoop_compares
    (permits : env.PermitsEverything)
    (repeats : prefixed inst = true)
    (loaded : Loaded inst operation operand state) :
    ∃ final,
      env.Exits
          (branchOver (beqz rcx)
            (loop (operation.execute inst.operandSize)
              (if inst.hasRep then bnqz else beqz) ++ updateFlags inst)) state
          (.ended final) ∧
        Compares runtime inst operation operand comparedFlags state
          final := by
  let comparing := loop (operation.execute inst.operandSize)
    (if inst.hasRep then bnqz else beqz)
  obtain ⟨-, short⟩ := execute_straight operation inst.operandSize
  have updates := @updateFlags_updates inst
  have length : (comparing ++ updateFlags inst).length < 1023 := by
    have further := @updateFlags_length inst
    simp only [comparing, loop, List.length_append, List.length_cons,
      List.length_nil]
    omega
  by_cases zero : state.get rcx = 0
  · have skipped : Branch.beq.eval (state.get rcx) (state.get .zero) =
        true := by
      rw [zero]
      rfl
    have none : comparisons inst operation operand state = 0 := by
      simp [comparisons, repeats, zero, EarlyExit.passes]
    exact ⟨state, Environment.exits_branch_taken permits skipped
      (branchOver_reach length), compares_none aligned none⟩
  · have entered : ¬ Branch.beq.eval (state.get rcx) (state.get .zero) =
        true := by
      rw [State.get_zero]
      simpa [Branch.eval] using zero
    have further := permits.shift 1
    have positive : comparisons inst operation operand state ≠ 0 := by
      rw [comparisons, if_pos repeats, ne_eq, EarlyExit.passes_eq_zero_iff]
      exact fun none => zero (BitVec.eq_of_toNat_eq none)
    obtain ⟨last, total⟩ := Nat.exists_eq_succ_of_ne_zero positive
    have loops := loop_exits operation noBase further loaded repeats
      zero
    have ends := fun middle => Environment.exits_straight updates.straight
      ((further.shift comparing.length).permitsAll middle _)
    have passes := iterate_passed operation noBase (env.shift 1).origin
      loaded (last + 1)
    rw [total] at loops
    refine ⟨_, Environment.exits_branch_skipped permits entered
      (loops.append (ends _) (by simp)) (by simp),
        compares_behind all aligned total passes.1
          (iterate_passed_table operation _ _ _) ?_
          (compared_iterate operation noBase _ loaded last) _⟩
    rw [repeats]
    exact passes.2.1

/-- Behind the load of the operand the comparisons are made and their flags
are stored. -/
theorem generateFlag_compares
    (permits : env.PermitsEverything)
    (wide : inst.addressSizeQword = true)
    (loaded : Loaded inst operation operand state) :
    ∃ code final,
      generateFlag inst (operation.execute inst.operandSize) = some code ∧
        env.Exits code state (.ended final) ∧
        Compares runtime inst operation operand comparedFlags state
          final := by
  cases repeats : prefixed inst with
  | false =>
      obtain ⟨noRep, noRepnz⟩ := Bool.or_eq_false_iff.mp repeats
      have generated : generateFlag inst
          (operation.execute inst.operandSize) =
            some (operation.execute inst.operandSize ++ updateFlags inst) := by
        simp [generateFlag, wide, noRep, noRepnz]
      have once : comparisons inst operation operand state = 0 + 1 := by
        simp [comparisons, repeats]
      have executes := Environment.exits_straight
        (execute_straight operation inst.operandSize).1
        (permits.permitsAll state _)
      have ends := fun count middle => Environment.exits_straight
        (@updateFlags_updates inst).straight
        ((permits.shift count).permitsAll middle _)
      obtain ⟨same, count, compared⟩ := execute_spec operation noBase
        env.origin loaded
      refine ⟨_, _, generated, executes.append (ends _ _) (by simp),
        compares_behind all aligned once same ?_ ?_ compared _⟩
      · exact applyAll_get_of_not_target _ _ fun written member =>
          pass_target operation written (List.mem_cons_of_mem _ member)
      · rw [repeats]
        exact count
  | true =>
      have generated : generateFlag inst
          (operation.execute inst.operandSize) =
            some (branchOver (beqz rcx)
              (loop (operation.execute inst.operandSize)
                (if inst.hasRep then bnqz else beqz) ++ updateFlags inst)) := by
        simp only [prefixed, Bool.or_eq_true] at repeats
        by_cases rep : inst.hasRep = true
        · simp [generateFlag, generateLoop, wide, rep]
        · simp [generateFlag, generateLoop, wide, rep,
            repeats.resolve_left rep]
      obtain ⟨final, exits, compares⟩ := @generateLoop_compares inst all
        operation operand noBase runtime env state aligned permits repeats
        loaded
      exact ⟨_, final, generated, exits, compares⟩

end Generate

section Scas

variable (inst : Instruction) (state : State)

/-- The first operand in the code, which does not load eight bytes for `SCAS`,
and does not look at the segment for `CMPS`. -/
def comparedOperand : FirstOperand where
  accumulator :=
    if inst.operandSize = .qword then state.get dstReg else state.get rax
  base := 0

/-- The load of the accumulator in front of the comparisons. -/
def loadAccumulator : List Inst :=
  (loadFromRegister rax (RegisterAccess.ofSize inst.operandSize) dstReg false
    true false).1

theorem loadAccumulator_computesInto :
    ComputesInto [dstReg] (loadAccumulator inst) :=
  loadFromRegister_computesInto _ _ _ _

theorem loadAccumulator_loaded (pc : Word) :
    Loaded inst scas (comparedOperand inst state)
      (applyAll pc state (loadAccumulator inst)) := by
  intro _
  by_cases whole : inst.operandSize = .qword
  · have nothing : loadAccumulator inst = [] := by
      rw [loadAccumulator, whole]
      rfl
    simp only [nothing, applyAll_nil, comparedOperand, if_pos whole]
    rw [whole]
    exact ((BitVec.setWidth_eq _).trans (BitVec.setWidth_eq _)).symm
  · have loaded := @loadFromRegister_full rax dstReg (by decide)
      (RegisterAccess.ofSize inst.operandSize) false false pc state
    have result : (loadFromRegister rax
        (RegisterAccess.ofSize inst.operandSize) dstReg false true false).2 =
          dstReg := by
      cases size : inst.operandSize with
      | qword => exact absurd size whole
      | _ => rfl
    rw [RegisterAccess.setWidth_part (RegisterAccess.ofSize_ne_hbyte _),
      ofSize_bits] at loaded
    simp only [result] at loaded
    simp only [comparedOperand, if_neg whole]
    exact loaded

end Scas

section Generate

variable {inst : Instruction} (all : inst.updateFlags = Flags.all)
variable {operation : RepeatableFlag}
variable (isRepeatable : inst.instructionClass = .repeatableFlag operation)
variable (wide : inst.addressSizeQword = true)
variable {env : Environment} (permits : env.PermitsEverything)
variable (runtime : JumpTable.Runtime) (symbols : Instruction.HostSymbols)
variable (entries : Nat)
variable {state : State} (aligned : TableAligned state)

include all isRepeatable wide permits

include aligned in
/-- The code makes the comparisons with the register for the first operand,
and leaves the flags with the overflow of the other order. -/
theorem generate_compares :
    ∃ code final, inst.generate symbols entries = some code ∧
      env.Exits code state (.ended final) ∧
      Compares runtime inst operation (comparedOperand inst state)
        comparedFlags state final := by
  cases operation with
  | cmps =>
      obtain ⟨code, final, generated, exits, compares⟩ :=
        @generateFlag_compares inst all cmps (comparedOperand inst state) rfl
          runtime env state aligned permits wide (by rintro ⟨⟩)
      refine ⟨code, final, ?_, exits, compares⟩
      simpa only [Instruction.generate, isRepeatable, generate] using generated
  | scas =>
      have computes := loadAccumulator_computesInto inst
      let loaded := applyAll env.origin state (loadAccumulator inst)
      have same : SameBesideCount loaded state :=
        ⟨fun reg _ => computes.get _ _ (by
            simpa using ne_of_isGuest (isGuest_mapReg reg) (by decide)),
          computes.mem _ _, computes.get _ _ (by decide)⟩
      have loadedAligned : TableAligned loaded := by
        rw [TableAligned, computes.get _ _ (by decide)]
        exact aligned
      obtain ⟨code, final, generated, exits, compares⟩ :=
        @generateFlag_compares inst all scas (comparedOperand inst state) rfl
          runtime (env.shift (loadAccumulator inst).length) loaded loadedAligned
          (permits.shift _) wide (loadAccumulator_loaded inst state _)
      have loads := Environment.exits_straight computes.straight
        (permits.permitsAll state _)
      have count : loaded.get rcx = state.get rcx :=
        computes.get _ _ (by decide)
      refine ⟨loadAccumulator inst ++ code, final, ?_,
        loads.append exits (by simp), compares.congr same count
          (comparisons_congr same count fun _ => rfl)
          fun last _ => ?_⟩
      · simp only [Instruction.generate, isRepeatable, generate, generated,
          Option.map_some]
        rfl
      · rw [first_congr inst scas _ (reached_congr same last),
          second_congr inst (reached_congr same last)]

end Generate

/-! ## Agreement with x86 -/

section Agree

variable {inst : Instruction} {operation : RepeatableFlag}
variable {operand compared : FirstOperand} {state : State}

/-- Without the prefix there is one comparison, and with it there is none if the
count is zero. -/
theorem comparisons_eq_zero_iff :
    comparisons inst operation operand state = 0 ↔
      prefixed inst = true ∧ state.get rcx = 0 := by
  unfold comparisons
  split
  · rename_i repeats
    rw [EarlyExit.passes_eq_zero_iff]
    simp only [repeats, true_and]
    exact ⟨fun none => BitVec.eq_of_toNat_eq none, fun none => by rw [none]; rfl⟩
  · rename_i once
    simp [once]

theorem comparisons_eq_one
    (some : comparisons inst operation operand state ≠ 0)
    (stopped : stops inst operation operand state) :
    comparisons inst operation operand state = 1 := by
  unfold comparisons at some ⊢
  split at some <;> rename_i repeats
  · rw [if_pos repeats]
    exact EarlyExit.passes_eq_one
      (fun none => some ((EarlyExit.passes_eq_zero_iff _ _ _ _).mpr none))
      stopped
  · rw [if_neg repeats]

theorem comparisons_le
    (repeats : prefixed inst = true) :
    comparisons inst operation operand state ≤ (state.get rcx).toNat := by
  rw [comparisons, if_pos repeats]
  exact EarlyExit.passes_le _ _ _ _

section Both

variable {runtime : JumpTable.Runtime} {final : State}
variable {flags expected : BitVec inst.operandSize.bits ->
  BitVec inst.operandSize.bits -> Flag -> Bool}
variable
  (left : Compares runtime inst operation operand flags state final)
  (right : Compares runtime inst operation compared expected state final)

include left right

/-- The count tells the number of comparisons. -/
theorem Compares.total_eq :
    comparisons inst operation operand state =
      comparisons inst operation compared state := by
  cases repeats : prefixed inst with
  | false => simp [comparisons, repeats]
  | true =>
      have first := @comparisons_le inst operation operand state repeats
      have second := @comparisons_le inst operation compared state repeats
      have bound := (state.get rcx).isLt
      have count := left.count.symm.trans right.count
      rw [repeats, if_pos rfl, if_pos rfl, sub_right_inj] at count
      have numbers := congrArg BitVec.toNat count
      rw [BitVec.toNat_ofNat, BitVec.toNat_ofNat, Nat.mod_eq_of_lt (by omega),
        Nat.mod_eq_of_lt (by omega)] at numbers
      exact numbers

/-- The flags of the last comparison are determined. -/
theorem Compares.flags_eq
    {env : Environment}
    (permits : env.PermitsEverything)
    {last : Nat}
    (total : comparisons inst operation operand state = last + 1) :
    flags
        (first inst operand (reached inst operation state last) operation)
        (second inst (reached inst operation state last)) =
      expected
        (first inst compared (reached inst operation state last) operation)
        (second inst (reached inst operation state last)) := by
  funext flag
  exact (left.flags last total env permits flag).unique
    (right.flags last ((left.total_eq right).symm.trans total) env permits
      flag)

end Both

/-- The first operand on x86. -/
def expectedOperand (inst : Instruction) (state : State) : FirstOperand where
  accumulator := state.get rax
  base := inst.segmentBase state

/-- The code reads the operands of `SCAS`, and without the segment there are as
many comparisons as on x86, of which the last one has the same flags when the
overflow is that of the other order. -/
def LastFits
    (inst : Instruction)
    (operation : RepeatableFlag)
    (state : State) : Prop :=
  let within := expectedOperand inst state
  let without := { within with base := 0 }
  ∀ last, comparisons inst operation within state = last + 1 ->
    (operation = scas -> inst.operandSize ≠ .qword) ∧
      comparisons inst operation without state = last + 1 ∧
      DiffersAlike
        (first inst without (reached inst operation state last) operation)
        (first inst within (reached inst operation state last) operation)
        (second inst (reached inst operation state last))

/-- Without a segment only the difference matters. -/
theorem lastFits_iff
    (noSegment : operation = scas ∨ inst.segmentBase state = 0) :
    LastFits inst operation state ↔
      ∀ last, comparisons inst operation (expectedOperand inst state) state =
          last + 1 ->
        (operation = scas -> inst.operandSize ≠ .qword) ∧
          first inst (expectedOperand inst state)
              (reached inst operation state last) operation -
            second inst (reached inst operation state last) ≠
              BitVec.intMin inst.operandSize.bits := by
  have agree : ∀ reached,
      first inst { expectedOperand inst state with base := 0 } reached
        operation = first inst (expectedOperand inst state) reached
          operation := by
    intro reached
    rcases noSegment with rfl | zero
    · rfl
    · rw [expectedOperand, zero]
  have total : comparisons inst operation
      { expectedOperand inst state with base := 0 } state =
        comparisons inst operation (expectedOperand inst state) state :=
    comparisons_congr (SameBesideCount.refl state) rfl agree
  unfold LastFits
  refine forall_congr' fun last => imp_congr_right fun isLast => ?_
  rw [agree, total, differsAlike_self_iff]
  simp only [isLast, true_and]

/-- A word that is the second operand of the first comparison if and only if
the accumulator is not. -/
theorem exists_scratch (operand : FirstOperand) (base : Word) :
    ∃ scratch : Word,
      (first inst ⟨scratch, base⟩ state scas = second inst state ↔
        ¬ first inst operand state scas = second inst state) := by
  have one : (1 : Word).setWidth inst.operandSize.bits ≠ 0 := by
    cases inst.operandSize <;> decide
  by_cases equal : first inst operand state scas = second inst state
  · refine ⟨(second inst state).setWidth 64 + 1, iff_of_false ?_
      (not_not_intro equal)⟩
    intro same
    simp only [first] at same
    rw [BitVec.setWidth_add _ _ inst.operandSize.bits_le,
      setWidth_bits] at same
    exact one (by simpa using same)
  · refine ⟨(second inst state).setWidth 64, iff_of_true ?_ equal⟩
    simp only [first]
    rw [setWidth_bits]

/-- A register that is not loaded makes another first comparison. -/
theorem Compares.first_eq_iff
    {runtime : JumpTable.Runtime}
    {env : Environment}
    (permits : env.PermitsEverything)
    {final : State}
    (some : comparisons inst operation operand state ≠ 0)
    (left : Compares runtime inst operation operand comparedFlags state
      final)
    (right : Compares runtime inst operation compared subtractionFlags state
      final) :
    first inst operand state operation = second inst state ↔
      first inst compared state operation = second inst state := by
  by_contra different
  have total := left.total_eq right
  have once : comparisons inst operation operand state = 0 + 1 := by
    by_cases stopped : stops inst operation operand state
    · exact comparisons_eq_one some stopped
    · rw [total] at some ⊢
      refine comparisons_eq_one some ?_
      unfold stops at stopped ⊢
      split at stopped <;> rename_i rep
      · rw [if_pos rep]
        tauto
      · rw [if_neg rep]
        tauto
  have flags := congrFun (left.flags_eq right permits once) .zero
  have zero : ((_ : BitVec _) == 0) = ((_ : BitVec _) == 0) := flags
  rw [Bool.eq_iff_iff, beq_iff_eq, beq_iff_eq, sub_eq_zero, sub_eq_zero] at zero
  exact different zero

end Agree

/-! ## The instructions -/

section Compare

variable {inst : Instruction} {operation : RepeatableFlag}

/-- String comparisons make the comparisons of x86 and leave its flags,
whatever is in the register for the first operand, if and only if eight bytes
are not compared with the accumulator, and the last comparison has the same
flags without the segment and with the overflow of the other order. -/
theorem generate_compares_iff
    {env : Environment}
    (permits : env.PermitsEverything)
    (runtime : JumpTable.Runtime)
    (symbols : Instruction.HostSymbols)
    (entries : Nat)
    (isRepeatable : inst.instructionClass = .repeatableFlag operation)
    (all : inst.updateFlags = Flags.all)
    (wide : inst.addressSizeQword = true)
    {state : State}
    (aligned : TableAligned state) :
    ∃ code, inst.generate symbols entries = some code ∧
      ((∀ scratch, ∃ final,
        (JumpTable.dispatch runtime env).Exits code (state.set dstReg scratch)
            (.ended final) ∧
          Compares runtime inst operation (expectedOperand inst state)
            subtractionFlags state final) ↔
        LastFits inst operation state) := by
  have dispatched : (JumpTable.dispatch runtime env).PermitsEverything :=
    permits
  let within := expectedOperand inst state
  let without : FirstOperand := { within with base := 0 }
  let loaded : Word -> FirstOperand := fun scratch =>
    ⟨if inst.operandSize = .qword then scratch else state.get rax, 0⟩
  obtain ⟨code, generated, actual⟩ : ∃ code,
      inst.generate symbols entries = some code ∧ ∀ scratch, ∃ final,
        (JumpTable.dispatch runtime env).Exits code (state.set dstReg scratch)
            (.ended final) ∧
          Compares runtime inst operation (loaded scratch) comparedFlags state
            final := by
    obtain ⟨code, -, generated, -, -⟩ := @generate_compares inst all operation
      isRepeatable wide _ dispatched runtime symbols entries state aligned
    refine ⟨code, generated, fun scratch => ?_⟩
    let before := state.set dstReg scratch
    have same : SameBesideCount before state :=
      (SameBesideCount.refl state).set_left (Or.inl (by decide)) (by decide) _
    have count : before.get rcx = state.get rcx :=
      State.set_get_of_ne _ _ (by decide)
    have operand : comparedOperand inst before = loaded scratch := by
      rw [comparedOperand, State.set_get_self _ _ (by decide),
        State.set_get_of_ne _ _ (by decide)]
    have beforeAligned : TableAligned before := by
      rw [TableAligned, State.set_get_of_ne _ _ (by decide)]
      exact aligned
    obtain ⟨_, final, again, exits, compares⟩ := @generate_compares inst all
      operation isRepeatable wide _ dispatched runtime symbols entries before
      beforeAligned
    obtain rfl := Option.some.inj (generated.symm.trans again)
    rw [operand] at compares
    refine ⟨final, exits, compares.congr same count
      (comparisons_congr same count fun _ => rfl) fun last _ => ?_⟩
    rw [first_congr inst operation _ (reached_congr same last),
      second_congr inst (reached_congr same last)]
  have agree : (operation = scas -> inst.operandSize ≠ .qword) ->
      ∀ scratch reached, first inst (loaded scratch) reached operation =
        first inst without reached operation := by
    intro short scratch reached
    cases operation with
    | cmps => rfl
    | scas =>
        simp only [first, loaded, without, within, expectedOperand,
          if_neg (short rfl)]
  have same := SameBesideCount.refl state
  have totalSame : (operation = scas -> inst.operandSize ≠ .qword) ->
      ∀ scratch, comparisons inst operation (loaded scratch) state =
        comparisons inst operation without state :=
    fun short scratch => comparisons_congr same rfl (agree short scratch)
  refine ⟨code, generated, fun holds => ?_, fun fits scratch => ?_⟩
  · intro last total
    have both : ∀ scratch, ∃ final,
        Compares runtime inst operation (loaded scratch) comparedFlags state
            final ∧
          Compares runtime inst operation within subtractionFlags state
            final := by
      intro scratch
      obtain ⟨final, exits, compares⟩ := actual scratch
      obtain ⟨other, otherExits, expected⟩ := holds scratch
      have same : other = final := by simpa using otherExits.unique exits
      exact ⟨final, compares, same ▸ expected⟩
    have short : operation = scas -> inst.operandSize ≠ .qword := by
      rintro rfl whole
      obtain ⟨scratch, differs⟩ := @exists_scratch inst state within 0
      obtain ⟨final, left, right⟩ := both scratch
      simp only [loaded, if_pos whole] at left
      have positive : comparisons inst scas ⟨scratch, 0⟩ state ≠ 0 := by
        rw [left.total_eq right, total]
        omega
      have same := left.first_eq_iff permits positive right
      tauto
    obtain ⟨final, left, right⟩ := both 0
    have count := (left.total_eq right).trans total
    have flags := left.flags_eq right permits count
    rw [agree short] at flags
    exact ⟨short, (totalSame short 0).symm.trans count,
      (comparedFlags_eq_iff _ _ _).mp flags⟩
  · obtain ⟨final, exits, compares⟩ := actual scratch
    by_cases none : comparisons inst operation within state = 0
    · have neither : comparisons inst operation (loaded scratch) state = 0 :=
        comparisons_eq_zero_iff.mpr (comparisons_eq_zero_iff.mp none)
      refine ⟨final, exits, compares.congr same rfl (neither.trans none.symm)
        fun last positive => ?_⟩
      rw [neither] at positive
      cases positive
    · obtain ⟨last, total⟩ := Nat.exists_eq_succ_of_ne_zero none
      obtain ⟨short, withoutTotal, -⟩ := fits last total
      have count : comparisons inst operation (loaded scratch) state =
          comparisons inst operation within state :=
        (totalSame short scratch).trans (withoutTotal.trans total.symm)
      refine ⟨final, exits, compares.congr same rfl count
        fun last positive => ?_⟩
      rw [agree short]
      exact (comparedFlags_eq_iff _ _ _).mpr
        (fits last (count.symm.trans positive)).2.2

/-- `cmpsb` -/
def cmpsb : Instruction :=
  InstructionClass.construct (.repeatableFlag .cmps)
    { type := .cmps
      operandSize := .byte }

/-- The smallest byte is at the source, and another one at the destination. -/
def smallestByte (other : BitVec 8) : State :=
  (({ Instruction.zeroState with
    mem := fun address =>
      if address = 0x1000 then 0x80
      else if address = 0x1800 then other
      else 0 }.set rsi 0x1000).set rdi 0x1800).set rax 5

/-- The difference is the greatest number, not the smallest one. -/
theorem generate_compares_iff_cmpsb :
    ∃ code, cmpsb.generate Instruction.sampleSymbols 0 = some code ∧
      ∀ scratch, ∃ final,
        (JumpTable.dispatch (fun _ _ => none) Stub.environment).Exits code
            ((smallestByte 1).set dstReg scratch) (.ended final) ∧
          Compares (fun _ _ => none) cmpsb .cmps
            (expectedOperand cmpsb (smallestByte 1)) subtractionFlags
            (smallestByte 1) final := by
  obtain ⟨code, generated, compares_iff⟩ :=
    @generate_compares_iff cmpsb .cmps Stub.environment (fun _ _ => rfl)
      (fun _ _ => none) Instruction.sampleSymbols 0 rfl rfl rfl (smallestByte 1)
      (by decide)
  refine ⟨code, generated, compares_iff.mpr
    ((lastFits_iff (Or.inr (by decide))).mpr fun last isLast => ?_)⟩
  obtain rfl : last = 0 := (Nat.succ.inj isLast).symm
  exact ⟨by decide, by decide +kernel⟩

/-- The smallest byte minus zero fits, and zero minus the smallest byte does
not. -/
theorem cmpsb_misses :
    ∃ code, cmpsb.generate Instruction.sampleSymbols 0 = some code ∧
      ¬ ∃ final,
        (JumpTable.dispatch (fun _ _ => none) Stub.environment).Exits code
            (smallestByte 0) (.ended final) ∧
          Compares (fun _ _ => none) cmpsb .cmps
            (expectedOperand cmpsb (smallestByte 0)) subtractionFlags
            (smallestByte 0) final := by
  have permits : (JumpTable.dispatch (fun _ _ => none)
      Stub.environment).PermitsEverything := fun _ _ => rfl
  obtain ⟨code, final, generated, exits, left⟩ := @generate_compares cmpsb rfl
    .cmps rfl rfl _ permits (fun _ _ => none) Instruction.sampleSymbols 0
    (smallestByte 0) (by decide)
  refine ⟨code, generated, ?_⟩
  rintro ⟨other, otherExits, right⟩
  have same : other = final := by simpa using otherExits.unique exits
  subst same
  have total : comparisons cmpsb .cmps (comparedOperand cmpsb (smallestByte 0))
      (smallestByte 0) = 0 + 1 := rfl
  have flags := congrFun (left.flags_eq right permits total) .overflow
  revert flags
  decide +kernel

end Compare

end RepeatableFlag

end Oxtra

import Oxtra.FlagEvaluation.Evaluation
import Oxtra.Helper.LoadAddress
import Oxtra.Helper.Registers
import Oxtra.Instructions.Conditions

/-!
# Conditional jumps

The code of a conditional jump evaluates the flags of its condition and either
leaves for the block of its target or runs to its end.
-/

namespace Oxtra

open RiscV
open Encoding
open Helper
open FlagInfo
open Instruction (evaluateZero evaluateSign evaluateParity evaluateCarry
  evaluateOverflow)

/-! ## Conditions -/

/-- The conditions of x86, on the values of the flags. -/
def Condition.holds (flags : Flag -> Bool) : Condition -> Bool
  | .a => !flags .zero && !flags .carry
  | .be => flags .zero || flags .carry
  | .c => flags .carry
  | .g => !flags .zero && flags .sign == flags .overflow
  | .ge => flags .sign == flags .overflow
  | .l => flags .sign != flags .overflow
  | .le => flags .zero || flags .sign != flags .overflow
  | .nc => !flags .carry
  | .no => !flags .overflow
  | .np => !flags .parity
  | .ns => !flags .sign
  | .nz => !flags .zero
  | .o => flags .overflow
  | .p => flags .parity
  | .s => flags .sign
  | .z => flags .zero

/-! ## What stays the same -/

/-- Number of bytes of the context that a call of a C function saves registers
in. -/
def savedBytes : Nat := 0xF8

/-- Nothing has changed but some registers, and what is saved in front of the
other fields of the context. -/
structure Unchanged
    (scratch : List Register)
    (before after : State) : Prop where
  registers : ∀ register, register ∉ scratch ->
    after.get register = before.get register
  memory : ∀ address,
    savedBytes ≤ (address - before.get contextAddress).toNat ->
      after.mem address = before.mem address

/-- Registers that the code of a conditional jump may change. -/
def jumpScratch : List Register :=
  [.t0, .ra, .t4, .t5, .t6, addressDestination]

theorem contextAddress_not_mem : contextAddress ∉ jumpScratch := by decide

theorem jumpTableAddress_not_mem : jumpTableAddress ∉ jumpScratch := by decide

namespace Unchanged

variable {scratch : List Register} {before middle after : State}

theorem refl (scratch : List Register) (state : State) :
    Unchanged scratch state state :=
  ⟨fun _ _ => rfl, fun _ _ => rfl⟩

theorem mono
    {wider : List Register}
    (unchanged : Unchanged scratch before after)
    (subset : scratch ⊆ wider) :
    Unchanged wider before after :=
  ⟨fun register outside =>
      unchanged.registers register fun member => outside (subset member),
    unchanged.memory⟩

theorem trans
    (context : contextAddress ∉ scratch)
    (first : Unchanged scratch before middle)
    (second : Unchanged scratch middle after) :
    Unchanged scratch before after where
  registers register outside :=
    (second.registers register outside).trans
      (first.registers register outside)
  memory address outside := by
    have same := first.registers contextAddress context
    rw [second.memory address (same.symm ▸ outside),
      first.memory address outside]

theorem of_mem
    (registers : ∀ register, register ∉ scratch ->
      after.get register = before.get register)
    (memory : after.mem = before.mem) :
    Unchanged scratch before after :=
  ⟨registers, fun _ _ => congrFun memory _⟩

/-- The lazy information is behind the saved registers. -/
theorem fields_eq
    (context : contextAddress ∉ scratch)
    (unchanged : Unchanged scratch before after) :
    fields after = fields before := by
  funext field
  obtain ⟨low, high⟩ := field.offset_lt
  have address : field.address after = field.address before := by
    rw [Field.address, Field.address, unchanged.registers _ context]
  change field.read after = field.read before
  rw [Field.read, Field.read, address]
  apply Memory.load_congr
  intro index inside
  apply unchanged.memory
  have short := field.bytes_le
  rw [Field.limit] at high
  rw [Field.address, add_assoc, add_sub_cancel_left, BitVec.toNat_add,
    BitVec.toNat_setWidth, BitVec.toNat_ofNat, savedBytes]
  omega

end Unchanged

/-! ## Lazy flags -/

/-- A routine calls a C function for a flag: it comes back with the value of the
flag, and keeps the other registers, the lazy information and the memory of the
guest. -/
def CallbackReturns
    (runtime : JumpTable.Runtime)
    (routine : JumpTable.Routine)
    (state : State)
    (flag : Bool) : Prop :=
  ∀ called, Unchanged jumpScratch state called ->
    ∃ returned, runtime routine called = some returned ∧
      returned.get .t4 = bit flag ∧ Unchanged [.t4] called returned

/-- The values of the flags, if the operations of the carry and the overflow
flag are supported.  Each of these is evaluated by a routine of the table or by
a C function. -/
structure LazyFlags
    (runtime : JumpTable.Runtime)
    (state : State)
    (flags : Flag -> Bool) : Prop where
  zero : flags .zero = (fields state .zeroValue == 0)
  sign : flags .sign = (fields state .signValue).getLsbD
    (shiftAmount (fields state .signSize))
  parity : flags .parity = evenParity (fields state .parityValue)
  carry : ∃ entry : JumpTable.Entry,
    fields state .carryOperation = entry.offset.setWidth 64 ∧
      (entry.carryFlag (fields state .carryFirst)
          (fields state .carrySecond) = some (flags .carry) ∨
        entry = .highLevelCarry ∧
          CallbackReturns runtime .highLevelCarry state (flags .carry))
  overflow : ∃ entry : JumpTable.Entry,
    fields state .overflowOperation = entry.offset.setWidth 64 ∧
      (entry.overflowFlag (fields state .overflowFirst)
          (fields state .overflowSecond) = some (flags .overflow) ∨
        entry = .highLevelOverflow ∧
          CallbackReturns runtime .highLevelOverflow state (flags .overflow))

section Keep

variable {runtime : JumpTable.Runtime} {before after : State}
variable (unchanged : Unchanged jumpScratch before after)

include unchanged

theorem CallbackReturns.of_unchanged
    {routine : JumpTable.Routine}
    {flag : Bool}
    (callback : CallbackReturns runtime routine before flag) :
    CallbackReturns runtime routine after flag :=
  fun called same =>
    callback called (unchanged.trans contextAddress_not_mem same)

theorem LazyFlags.of_unchanged
    {flags : Flag -> Bool}
    (lazyFlags : LazyFlags runtime before flags) :
    LazyFlags runtime after flags := by
  have same := unchanged.fields_eq contextAddress_not_mem
  obtain ⟨carryEntry, carryOperation, carryValue⟩ := lazyFlags.carry
  obtain ⟨overflowEntry, overflowOperation, overflowValue⟩ :=
    lazyFlags.overflow
  constructor
  · rw [same]
    exact lazyFlags.zero
  · rw [same]
    exact lazyFlags.sign
  · rw [same]
    exact lazyFlags.parity
  · rw [same]
    exact ⟨carryEntry, carryOperation, carryValue.imp_right fun callback =>
      ⟨callback.1, callback.2.of_unchanged unchanged⟩⟩
  · rw [same]
    exact ⟨overflowEntry, overflowOperation,
      overflowValue.imp_right fun callback =>
        ⟨callback.1, callback.2.of_unchanged unchanged⟩⟩

theorem TableAligned.of_unchanged
    (aligned : TableAligned before) : TableAligned after := by
  rw [TableAligned, unchanged.registers _ jumpTableAddress_not_mem]
  exact aligned

end Keep

/-! ## Evaluating the flags -/

/-- Code runs to its end, leaves a flag in a register and keeps all but some
registers. -/
def EndsWith
    (env : Environment)
    (code : List Inst)
    (scratch : List Register)
    (state : State)
    (register : Register)
    (flag : Bool) : Prop :=
  ∃ next, env.Exits code state (.ended next) ∧ next.get register = bit flag ∧
    Unchanged scratch state next

theorem EndsWith.mono
    {env : Environment}
    {code : List Inst}
    {scratch wider : List Register}
    {state : State}
    {register : Register}
    {flag : Bool}
    (ends : EndsWith env code scratch state register flag)
    (subset : scratch ⊆ wider) :
    EndsWith env code wider state register flag := by
  obtain ⟨next, exits, value, unchanged⟩ := ends
  exact ⟨next, exits, value, unchanged.mono subset⟩

theorem endsWith_of_evaluates
    {env : Environment}
    {code : List Inst}
    {state : State}
    {flag : Bool}
    (evaluates : Evaluates env code state flag) :
    EndsWith env code evaluationScratch state .t4 flag := by
  obtain ⟨final, exits, value, memory, registers⟩ := evaluates
  exact ⟨final, exits, value, Unchanged.of_mem registers memory⟩

/-- The code computes or loads into some registers. -/
def Targets (registers : List Register) (code : List Inst) : Prop :=
  ∀ inst ∈ code, inst.isStraight = true ∧
    ∃ register ∈ registers, inst.target = some register

instance (registers : List Register) (code : List Inst) :
    Decidable (Targets registers code) :=
  inferInstanceAs (Decidable (∀ _ ∈ _, _))

theorem endsWith_of_targets
    {env : Environment}
    {code : List Inst}
    {scratch : List Register}
    {state : State}
    {register : Register}
    {flag : Bool}
    (permits : env.PermitsEverything)
    (targets : Targets scratch code)
    (value : (applyAll env.origin state code).get register = bit flag) :
    EndsWith env code scratch state register flag := by
  have straight : ∀ inst ∈ code, inst.isStraight = true :=
    fun inst member => (targets inst member).1
  refine ⟨_, Environment.exits_straight straight (permits.permitsAll _ _),
    value, Unchanged.of_mem ?_ ?_⟩
  · intro other outside
    apply applyAll_get_of_not_target
    intro inst member equal
    obtain ⟨-, target, inside, targeted⟩ := targets inst member
    rw [targeted] at equal
    cases equal
    exact outside inside
  · apply applyAll_mem_of_target
    intro inst member
    obtain ⟨-, target, -, targeted⟩ := targets inst member
    rw [targeted]
    rfl

/-- A call of a C function for a flag. -/
theorem endsWith_of_callback
    {runtime : JumpTable.Runtime}
    {env : Environment}
    {entry : JumpTable.Entry}
    {routine : JumpTable.Routine}
    {state : State}
    {offset : BitVec 16}
    {flag : Bool}
    (permits : env.PermitsEverything)
    (aligned : TableAligned state)
    (operation : state.mem.load
      (state.get .s11 + (offset.setWidth 12).signExtend 64) 2 =
        entry.offset.setWidth 64)
    (destination : entry.destination = .routine routine)
    (callback : CallbackReturns runtime routine state flag) :
    EndsWith (JumpTable.dispatch runtime env)
      (lhu .t4 contextAddress offset :: JumpTable.jumpTableOffset .t4)
      evaluationScratch state .t4 flag := by
  obtain ⟨called, sameCalled, kept, -, exits⟩ :=
    @exits_tableOffset runtime env entry state offset permits aligned operation
  have calls : Unchanged [.t4, .ra] state called :=
    Unchanged.of_mem kept sameCalled
  obtain ⟨returned, returns, value, unchanged⟩ :=
    callback called (calls.mono (by decide))
  have entered := JumpTable.call_entry runtime entry called
  rw [kept jumpTableAddress (by decide), destination] at entered
  refine ⟨returned, exits returned (entered.trans returns), value, ?_⟩
  exact (calls.mono (by decide)).trans (by decide)
    (unchanged.mono (by decide))

section Evaluate

variable {runtime : JumpTable.Runtime} {env : Environment} {state : State}
variable {flags : Flag -> Bool}
variable (permits : env.PermitsEverything)
variable (lazyFlags : LazyFlags runtime state flags)

include permits lazyFlags

theorem evaluateZeroInto_ends
    {dest : Register}
    (targets : Targets jumpScratch (evaluateZero dest))
    (nonzero : dest ≠ .zero) :
    EndsWith (JumpTable.dispatch runtime env) (evaluateZero dest) jumpScratch
      state dest (flags .zero) := by
  refine endsWith_of_targets permits targets ?_
  rw [lazyFlags.zero]
  exact evaluateZero_value _ state nonzero

theorem evaluateZero_ends :
    EndsWith (JumpTable.dispatch runtime env) (evaluateZero .t4) jumpScratch
      state .t4 (flags .zero) :=
  evaluateZeroInto_ends permits lazyFlags (by decide) (by decide)

theorem evaluateSign_ends
    {dest temp : Register}
    (targets : Targets jumpScratch (evaluateSign dest temp))
    (destNonzero : dest ≠ .zero)
    (tempNonzero : temp ≠ .zero)
    (different : temp ≠ dest)
    (notContext : temp ≠ contextAddress) :
    EndsWith (JumpTable.dispatch runtime env) (evaluateSign dest temp)
      jumpScratch state dest (flags .sign) := by
  refine endsWith_of_targets permits targets ?_
  rw [lazyFlags.sign]
  exact evaluateSign_value _ state destNonzero tempNonzero different notContext

theorem evaluateParity_ends :
    EndsWith (JumpTable.dispatch runtime env) (evaluateParity .t4 .t5)
      jumpScratch state .t4 (flags .parity) := by
  refine endsWith_of_targets permits (by decide) ?_
  rw [lazyFlags.parity]
  exact evaluateParity_value _ state (by decide) (by decide) (by decide)

theorem evaluateCarry_ends (aligned : TableAligned state) :
    EndsWith (JumpTable.dispatch runtime env) evaluateCarry evaluationScratch
      state .t4 (flags .carry) := by
  obtain ⟨entry, operation, flag | ⟨rfl, callback⟩⟩ := lazyFlags.carry
  · rw [← carryValue_zero, ← carryValue_one] at flag
    exact endsWith_of_evaluates
      (evaluateCarry_entry permits aligned operation flag)
  · exact endsWith_of_callback permits aligned operation rfl callback

theorem evaluateOverflow_ends (aligned : TableAligned state) :
    EndsWith (JumpTable.dispatch runtime env) evaluateOverflow
      evaluationScratch state .t4 (flags .overflow) := by
  obtain ⟨entry, operation, flag | ⟨rfl, callback⟩⟩ := lazyFlags.overflow
  · rw [← overflowValue_zero, ← overflowValue_one] at flag
    exact endsWith_of_evaluates
      (evaluateOverflow_entry permits aligned operation flag)
  · exact endsWith_of_callback permits aligned operation rfl callback

end Evaluate

/-! ## Jumping or not -/

/-- The address of an entry of the table. -/
def JumpTable.Entry.address (entry : JumpTable.Entry) (state : State) : Word :=
  state.get jumpTableAddress + entry.offset.setWidth 64

theorem Unchanged.tableAddress_eq
    {before after : State}
    (unchanged : Unchanged jumpScratch before after)
    (entry : JumpTable.Entry) :
    entry.address after = entry.address before := by
  rw [JumpTable.Entry.address, JumpTable.Entry.address,
    unchanged.registers _ jumpTableAddress_not_mem]

/-- Code leaves for the block of a target, or it runs to its end. -/
def JumpsIf
    (env : Environment)
    (code : List Inst)
    (target : Word)
    (state : State)
    (jumps : Bool) : Prop :=
  ∃ after, Unchanged jumpScratch state after ∧
    if jumps then
      env.Exits code state
          (.left (JumpTable.Entry.rerouteStatic.address state) after) ∧
        after.get addressDestination = target
    else
      env.Exits code state (.ended after)

section Jumps

variable {env : Environment} {code body : List Inst} {target : Word}
variable {state : State} {jumps : Bool}

/-- Code in front of the jump. -/
theorem JumpsIf.behind
    {first : List Inst}
    {next : State}
    (ends : env.Exits first state (.ended next))
    (unchanged : Unchanged jumpScratch state next)
    (further : JumpsIf (env.shift first.length) code target next jumps) :
    JumpsIf env (first ++ code) target state jumps := by
  obtain ⟨after, unchangedAfter, outcome⟩ := further
  refine ⟨after, unchanged.trans contextAddress_not_mem unchangedAfter, ?_⟩
  cases jumps with
  | true =>
      rw [if_pos rfl, unchanged.tableAddress_eq] at outcome
      rw [if_pos rfl]
      exact ⟨ends.append outcome.1 (by simp), outcome.2⟩
  | false =>
      rw [if_neg Bool.false_ne_true] at outcome ⊢
      exact ends.append outcome (by simp)

/-- Branches reach over short code. -/
theorem branchOver_reach
    {length : Nat}
    (short : length < 1023) :
    ((BitVec.ofNat 32 (4 * (1 + length))).extractLsb' 1 12).toInt =
      2 * (1 + length) := by
  have value : ((BitVec.ofNat 32 (4 * (1 + length))).extractLsb' 1 12).toNat =
      2 * (1 + length) := by
    rw [BitVec.extractLsb'_toNat, BitVec.toNat_ofNat, Nat.shiftRight_eq_div_pow]
    omega
  rw [BitVec.toInt_eq_toNat_of_lt (by omega), value]
  push_cast
  ring

/-- Branches reach back over short code. -/
theorem branchBack_reach
    {length : Nat}
    (short : length ≤ 1024) :
    ((BitVec.ofInt 32 (-4 * length)).extractLsb' 1 12).toInt =
      -(2 * length) := by
  have value : ((BitVec.ofInt 32 (-4 * length)).extractLsb' 1 12).toNat =
      ((-4 * (length : Int)) % 2 ^ 32).toNat / 2 % 2 ^ 12 := by
    rw [BitVec.extractLsb'_toNat, BitVec.toNat_ofInt,
      Nat.shiftRight_eq_div_pow]
    rfl
  rw [BitVec.toInt_eq_toNat_cond, value]
  split <;> omega

/-- A branch over the code. -/
theorem jumpsIf_branchOver
    {kind : Branch}
    {rs1 rs2 : Register}
    (permits : env.PermitsEverything)
    (short : body.length < 1023)
    (inside : JumpsIf (env.shift 1) body target state jumps) :
    JumpsIf env (branchOver (btype kind rs1 rs2) body) target state
      (!kind.eval (state.get rs1) (state.get rs2) && jumps) := by
  by_cases taken : kind.eval (state.get rs1) (state.get rs2) = true
  · rw [taken]
    refine ⟨state, Unchanged.refl _ state, ?_⟩
    exact Environment.exits_branch_taken permits taken (branchOver_reach short)
  · obtain ⟨after, unchanged, outcome⟩ := inside
    refine ⟨after, unchanged, ?_⟩
    rw [Bool.eq_false_iff.mpr taken]
    cases jumps with
    | true =>
        exact ⟨Environment.exits_branch_skipped permits taken outcome.1
          (by simp), outcome.2⟩
    | false =>
        exact Environment.exits_branch_skipped permits taken outcome (by simp)

/-- The jump in front of the evaluation of further flags: it is reached at
once or by the branch behind them. -/
theorem jumpsIf_jumpOrBack
    {jump further : List Inst}
    {kind : Branch}
    {rs1 rs2 : Register}
    {zero : Bool}
    {middle : State}
    (permits : env.PermitsEverything)
    (short : jump.length + further.length < 1023)
    (flag : state.get .t4 = bit zero)
    (jumpLeaves : ∀ before, TableAligned before ->
      JumpsIf (env.shift 1) jump target before true)
    (aligned : TableAligned state)
    (furtherEnds : (env.shift (1 + jump.length)).Exits further state
      (.ended middle))
    (unchanged : Unchanged jumpScratch state middle) :
    JumpsIf env (Jcc.jumpOrBack jump further (btype kind rs1 rs2)) target state
      (zero || kind.eval (middle.get rs1) (middle.get rs2)) := by
  have skips : Branch.beq.eval (state.get .t4) (state.get .zero) = !zero := by
    rw [flag, State.get_zero]
    cases zero <;> rfl
  let skip : Inst := beqz .t4 (BitVec.ofNat 32 (4 * (1 + jump.length)))
  let again : Inst := btype kind rs1 rs2
    (BitVec.ofInt 32 (-4 * (jump ++ further).length))
  have reach := @branchOver_reach jump.length (by omega)
  change JumpsIf env (skip :: jump ++ further ++ [again]) target state _
  cases zero with
  | true =>
      obtain ⟨after, unchangedAfter, exits, reached⟩ :=
        jumpLeaves state aligned
      have entered : env.Exits (skip :: jump) state _ :=
        Environment.exits_branch_skipped permits (by rw [skips]; decide)
          exits (by simp)
      refine ⟨after, unchangedAfter, ?_, reached⟩
      rw [List.append_assoc]
      exact entered.append_left _ (by simp) (by simp)
  | false =>
      have skipped : env.Exits (skip :: jump) state (.ended state) :=
        Environment.exits_branch_taken permits skips reach
      by_cases back : kind.eval (middle.get rs1) (middle.get rs2) = true
      · have alignedMiddle := aligned.of_unchanged unchanged
        obtain ⟨after, unchangedAfter, exits, reached⟩ :=
          jumpLeaves middle alignedMiddle
        have length : (jump ++ further).length =
            jump.length + further.length := List.length_append
        have backReach := @branchBack_reach (jump ++ further).length
          (by omega)
        have sum : -(2 * ((jump ++ further).length : Int)) =
            -(2 * (jump.length + further.length)) := by
          rw [length, Nat.cast_add]
        rw [unchanged.tableAddress_eq] at exits
        refine ⟨after, unchanged.trans contextAddress_not_mem unchangedAfter,
          ?_⟩
        rw [back, Bool.or_true, if_pos rfl]
        exact ⟨Environment.exits_branch_back permits skips reach furtherEnds
          back (backReach.trans sum) exits (by simp) (by simp), reached⟩
      · refine ⟨middle, unchanged, ?_⟩
        rw [Bool.eq_false_iff.mpr back, Bool.or_false,
          if_neg Bool.false_ne_true]
        rw [Nat.add_comm 1] at furtherEnds
        have evaluated : env.Exits (skip :: jump ++ further) state
            (.ended middle) := skipped.append furtherEnds (by simp)
        let later := env.shift (skip :: jump ++ further).length
        have last : later.Exits [again] middle (.ended middle) :=
          Environment.exits_branch_skipped permits back ⟨1, rfl⟩ (by simp)
        exact evaluated.append last (by simp)

end Jumps

/-! ## The code of the jumps -/

section Code

variable {runtime : JumpTable.Runtime} {env : Environment} {state : State}
variable (permits : env.PermitsEverything)

include permits

/-- A jump to a routine that does not return. -/
theorem jumpTableEntry_leaves
    {entry : JumpTable.Entry}
    {routine : JumpTable.Routine}
    (aligned : TableAligned state)
    (destination : entry.destination = .routine routine)
    (near : ((entry.offset.setWidth 12).signExtend 64 : Word) =
      entry.offset.setWidth 64)
    (noReturn : runtime routine (state.set .ra (env.address 1)) = none) :
    (JumpTable.dispatch runtime env).Exits (JumpTable.jumpTableEntry entry)
      state
      (.left (entry.address state) (state.set .ra (env.address 1))) := by
  let dispatch := JumpTable.dispatch runtime env
  have permits : dispatch.PermitsEverything := permits
  have target : jumpTarget state jumpTableAddress
      (entry.offset.setWidth 12) = entry.address state := by
    have tableAligned : (state.get jumpTableAddress).toNat % 4 = 0 := aligned
    have entryOffset := entry.offset_toNat
    rw [jumpTarget, near]
    apply clear_lowest_bit
    rw [BitVec.toNat_add, BitVec.toNat_setWidth]
    omega
  have called : JumpTable.call runtime (entry.address state)
      (state.set .ra (env.address 1)) = none := by
    have entered := JumpTable.call_entry runtime entry
      (state.set .ra (env.address 1))
    rw [State.set_get_of_ne _ _ (by decide), destination] at entered
    exact entered.trans noReturn
  have step : dispatch.step (JumpTable.jumpTableEntry entry) 0 state =
      .exit (.left (entry.address state) (state.set .ra (env.address 1))) := by
    rw [Environment.step_permitted
      (rfl : (JumpTable.jumpTableEntry entry)[0]? = some _) (permits _ _)]
    have noCall : dispatch.call (jumpTarget state jumpTableAddress
        (entry.offset.setWidth 12)) (state.set .ra (dispatch.address 1)) =
          none := by
      rw [target]
      exact called
    simp only [Environment.execute, Encoding.jalr, Nat.zero_add, noCall]
    rw [target]
    rfl
  refine ⟨1, ?_⟩
  rw [Environment.run, step]

/-- The jump to the block of an address. -/
theorem appendEob_jumps
    (noReturn : ∀ state, runtime .rerouteStatic state = none)
    (aligned : TableAligned state)
    (ptr : Word) :
    JumpsIf (JumpTable.dispatch runtime env) (appendEob ptr) ptr state
      true := by
  let dispatch := JumpTable.dispatch runtime env
  have permits : dispatch.PermitsEverything := permits
  let loaded := state.set addressDestination ptr
  let further := env.shift (loadAddress ptr addressDestination).length
  have straight : ∀ inst ∈ loadAddress ptr addressDestination,
      inst.isStraight = true := by
    simp only [loadAddress, List.forall_mem_cons]
    exact ⟨rfl, rfl, rfl, rfl, rfl, rfl, rfl, rfl, by simp⟩
  have loads : dispatch.Exits (loadAddress ptr addressDestination) state
      (.ended loaded) := by
    have exits := Environment.exits_straight straight
      (permits.permitsAll state _)
    rw [applyAll_loadAddress _ _ _ (by decide)] at exits
    exact exits
  have table : loaded.get jumpTableAddress = state.get jumpTableAddress :=
    State.set_get_of_ne _ _ (by decide)
  have alignedLoaded : TableAligned loaded := by
    rw [TableAligned, table]
    exact aligned
  have permitsFurther : further.PermitsEverything := permits
  have leaves := jumpTableEntry_leaves permitsFurther alignedLoaded
    (rfl : JumpTable.Entry.rerouteStatic.destination = _) (by decide)
    (noReturn _)
  rw [JumpTable.Entry.address, table] at leaves
  refine ⟨loaded.set .ra (further.address 1), ?_,
    loads.append leaves (by simp), ?_⟩
  · refine Unchanged.of_mem (fun register outside => ?_) rfl
    simp only [jumpScratch, List.mem_cons, List.not_mem_nil, or_false, not_or]
      at outside
    rw [State.set_get_of_ne _ _ outside.2.1,
      State.set_get_of_ne _ _ outside.2.2.2.2.2]
  · rw [State.set_get_of_ne _ _ (by decide), State.set_get_self _ _ (by decide)]

end Code

section Conditions

variable {runtime : JumpTable.Runtime} {jump : List Inst} {target : Word}
variable (short : jump.length < 1000)
variable (leaves : ∀ env : Environment, env.PermitsEverything ->
  ∀ before, TableAligned before ->
    JumpsIf (JumpTable.dispatch runtime env) jump target before true)
variable {env : Environment} (permits : env.PermitsEverything)
variable {state : State} {flags : Flag -> Bool}

theorem bit_bne_get_zero (flag : Bool) :
    Branch.bne.eval (bit flag) (State.get state .zero) = flag := by
  rw [State.get_zero]
  cases flag <;> rfl

theorem bit_beq_get_zero (flag : Bool) :
    Branch.beq.eval (bit flag) (State.get state .zero) = !flag := by
  rw [State.get_zero]
  cases flag <;> rfl

include short leaves permits

/-- A branch on one flag, behind the code that evaluates it. -/
theorem jumpsIf_flag
    {code : List Inst}
    {flag : Bool}
    (aligned : TableAligned state)
    (ends : EndsWith (JumpTable.dispatch runtime env) code jumpScratch state
      .t4 flag) :
    JumpsIf (JumpTable.dispatch runtime env)
        (code ++ branchOver (bnqz .t4) jump) target state (!flag) ∧
      JumpsIf (JumpTable.dispatch runtime env)
        (code ++ branchOver (beqz .t4) jump) target state flag := by
  obtain ⟨next, exits, value, unchanged⟩ := ends
  let later := env.shift code.length
  have permitsLater : (JumpTable.dispatch runtime later).PermitsEverything :=
    permits
  have inside := leaves (later.shift 1) permits next
    (aligned.of_unchanged unchanged)
  constructor
  · have branches := @jumpsIf_branchOver (JumpTable.dispatch runtime later)
      jump target next true .bne .t4 .zero permitsLater (by omega) inside
    rw [value, bit_bne_get_zero, Bool.and_true] at branches
    exact JumpsIf.behind exits unchanged branches
  · have branches := @jumpsIf_branchOver (JumpTable.dispatch runtime later)
      jump target next true .beq .t4 .zero permitsLater (by omega) inside
    rw [value, bit_beq_get_zero, Bool.and_true, Bool.not_not] at branches
    exact JumpsIf.behind exits unchanged branches

variable (aligned : TableAligned state)
variable (lazyFlags : LazyFlags runtime state flags)

include aligned lazyFlags

omit short leaves in
/-- The sign flag stays in `t0` while the overflow flag is evaluated. -/
theorem signOverflow_ends :
    ∃ next, (JumpTable.dispatch runtime env).Exits
        (evaluateSign .t0 .t5 ++ evaluateOverflow) state (.ended next) ∧
      next.get .t0 = bit (flags .sign) ∧
      next.get .t4 = bit (flags .overflow) ∧
      Unchanged jumpScratch state next := by
  obtain ⟨signed, signExits, sign, signUnchanged⟩ :=
    @evaluateSign_ends runtime env state flags permits lazyFlags .t0 .t5
      (by decide) (by decide) (by decide) (by decide) (by decide)
  let later := env.shift (evaluateSign .t0 .t5).length
  have permitsLater : later.PermitsEverything := permits
  obtain ⟨next, exits, overflow, unchanged⟩ :=
    evaluateOverflow_ends permitsLater (lazyFlags.of_unchanged signUnchanged)
      (aligned.of_unchanged signUnchanged)
  refine ⟨next, signExits.append exits (by simp), ?_, overflow,
    signUnchanged.trans contextAddress_not_mem (unchanged.mono (by decide))⟩
  rw [unchanged.registers _ (by decide), sign]

/-- A branch that compares the sign and the overflow flag. -/
theorem jumpsIf_signOverflow :
    JumpsIf (JumpTable.dispatch runtime env)
        (evaluateSign .t0 .t5 ++ evaluateOverflow ++
          branchOver (bne .t4 .t0) jump) target state
        (flags .sign == flags .overflow) ∧
      JumpsIf (JumpTable.dispatch runtime env)
        (evaluateSign .t0 .t5 ++ evaluateOverflow ++
          branchOver (beq .t4 .t0) jump) target state
        (flags .sign != flags .overflow) := by
  obtain ⟨next, exits, sign, overflow, unchanged⟩ :=
    signOverflow_ends permits aligned lazyFlags
  let later := env.shift (evaluateSign .t0 .t5 ++ evaluateOverflow).length
  have permitsLater : (JumpTable.dispatch runtime later).PermitsEverything :=
    permits
  have inside := leaves (later.shift 1) permits next
    (aligned.of_unchanged unchanged)
  have differ : Branch.bne.eval (bit (flags .overflow)) (bit (flags .sign)) =
      !(flags .sign == flags .overflow) := by
    cases flags .sign <;> cases flags .overflow <;> rfl
  have equal : Branch.beq.eval (bit (flags .overflow)) (bit (flags .sign)) =
      !(flags .sign != flags .overflow) := by
    cases flags .sign <;> cases flags .overflow <;> rfl
  constructor
  · have branches := @jumpsIf_branchOver (JumpTable.dispatch runtime later)
      jump target next true .bne .t4 .t0 permitsLater (by omega) inside
    rw [sign, overflow, differ, Bool.and_true, Bool.not_not] at branches
    exact JumpsIf.behind exits unchanged branches
  · have branches := @jumpsIf_branchOver (JumpTable.dispatch runtime later)
      jump target next true .beq .t4 .t0 permitsLater (by omega) inside
    rw [sign, overflow, equal, Bool.and_true, Bool.not_not] at branches
    exact JumpsIf.behind exits unchanged branches

omit short leaves aligned in
/-- Code that is skipped if the zero flag is set. -/
theorem jumpsIf_notZero
    {code : List Inst}
    {jumps : Bool}
    (shortCode : code.length < 1023)
    (inside : ∀ env : Environment, env.PermitsEverything ->
      ∀ next, Unchanged jumpScratch state next ->
        JumpsIf (JumpTable.dispatch runtime env) code target next jumps) :
    JumpsIf (JumpTable.dispatch runtime env)
      (evaluateZero .t4 ++ branchOver (bnqz .t4) code) target state
      (!flags .zero && jumps) := by
  obtain ⟨next, exits, value, unchanged⟩ :=
    @evaluateZero_ends runtime env state flags permits lazyFlags
  let later := env.shift (evaluateZero .t4).length
  have permitsLater : (JumpTable.dispatch runtime later).PermitsEverything :=
    permits
  have branches := @jumpsIf_branchOver (JumpTable.dispatch runtime later)
    code target next jumps .bne .t4 .zero permitsLater shortCode
    (inside (later.shift 1) permits next unchanged)
  rw [value, bit_bne_get_zero] at branches
  exact JumpsIf.behind exits unchanged branches

/-- A jump that is taken if the zero flag is set or behind further code. -/
theorem jumpsIf_zeroOr
    {further : List Inst}
    {kind : Branch}
    {rs1 rs2 : Register}
    {jumps : Bool}
    (shortFurther : further.length < 20)
    (ends : ∀ env : Environment, env.PermitsEverything ->
      ∀ next, Unchanged jumpScratch state next ->
        ∃ middle, (JumpTable.dispatch runtime env).Exits further next
            (.ended middle) ∧
          kind.eval (middle.get rs1) (middle.get rs2) = jumps ∧
          Unchanged jumpScratch next middle) :
    JumpsIf (JumpTable.dispatch runtime env)
      (evaluateZero .t4 ++ Jcc.jumpOrBack jump further (btype kind rs1 rs2))
      target state (flags .zero || jumps) := by
  obtain ⟨next, exits, value, unchanged⟩ :=
    @evaluateZero_ends runtime env state flags permits lazyFlags
  let later := env.shift (evaluateZero .t4).length
  have permitsLater : (JumpTable.dispatch runtime later).PermitsEverything :=
    permits
  obtain ⟨middle, furtherExits, back, furtherUnchanged⟩ :=
    ends (later.shift (1 + jump.length)) permits next unchanged
  have alignedNext := aligned.of_unchanged unchanged
  have jumps := @jumpsIf_jumpOrBack (JumpTable.dispatch runtime later) target
    next jump further kind rs1 rs2 (flags .zero) middle permitsLater
    (by omega) value (fun before => leaves (later.shift 1) permits before)
    alignedNext furtherExits furtherUnchanged
  rw [back] at jumps
  exact JumpsIf.behind exits unchanged jumps

/-- The code jumps if and only if the condition holds. -/
theorem Jcc.execute_jumpsIf (condition : Condition) :
    JumpsIf (JumpTable.dispatch runtime env) (Jcc.execute jump condition)
      target state (condition.holds flags) := by
  have scratch : evaluationScratch ⊆ jumpScratch := by decide
  have carry := jumpsIf_flag short leaves permits aligned
    ((evaluateCarry_ends permits lazyFlags aligned).mono scratch)
  have overflow := jumpsIf_flag short leaves permits aligned
    ((evaluateOverflow_ends permits lazyFlags aligned).mono scratch)
  have parity := jumpsIf_flag short leaves permits aligned
    (evaluateParity_ends permits lazyFlags)
  have zero := jumpsIf_flag short leaves permits aligned
    (evaluateZero_ends permits lazyFlags)
  have sign := jumpsIf_flag short leaves permits aligned
    (@evaluateSign_ends runtime env state flags permits lazyFlags .t4 .t0
      (by decide) (by decide) (by decide) (by decide) (by decide))
  have compared := jumpsIf_signOverflow short leaves permits aligned lazyFlags
  cases condition with
  | a =>
      refine jumpsIf_notZero permits lazyFlags ?_ ?_
      · simp [branchOver, evaluateCarry, JumpTable.jumpTableOffset]
        omega
      · intro env permits next unchanged
        exact (jumpsIf_flag short leaves permits
          (aligned.of_unchanged unchanged)
          ((evaluateCarry_ends permits (lazyFlags.of_unchanged unchanged)
            (aligned.of_unchanged unchanged)).mono scratch)).1
  | be =>
      refine jumpsIf_zeroOr short leaves permits aligned lazyFlags (by decide)
        ?_
      intro env permits next unchanged
      obtain ⟨middle, exits, value, kept⟩ :=
        (evaluateCarry_ends permits (lazyFlags.of_unchanged unchanged)
          (aligned.of_unchanged unchanged)).mono scratch
      refine ⟨middle, exits, ?_, kept⟩
      rw [value, bit_bne_get_zero]
  | g =>
      refine jumpsIf_notZero permits lazyFlags ?_ ?_
      · simp [branchOver, evaluateSign, evaluateOverflow,
          JumpTable.jumpTableOffset]
        omega
      · intro env permits next unchanged
        exact (jumpsIf_signOverflow short leaves permits
          (aligned.of_unchanged unchanged)
          (lazyFlags.of_unchanged unchanged)).1
  | le =>
      refine jumpsIf_zeroOr short leaves permits aligned lazyFlags (by decide)
        ?_
      intro env permits next unchanged
      obtain ⟨middle, exits, sign, overflow, kept⟩ :=
        signOverflow_ends permits (aligned.of_unchanged unchanged)
          (lazyFlags.of_unchanged unchanged)
      refine ⟨middle, exits, ?_, kept⟩
      rw [sign, overflow]
      cases flags .sign <;> cases flags .overflow <;> rfl
  | ge => exact compared.1
  | l => exact compared.2
  | c => exact carry.2
  | nc => exact carry.1
  | o => exact overflow.2
  | no => exact overflow.1
  | p => exact parity.2
  | np => exact parity.1
  | s => exact sign.2
  | ns => exact sign.1
  | z => exact zero.2
  | nz => exact zero.1

end Conditions

/-- The code of a conditional jump to an immediate target goes to the block of
the target if and only if the condition holds on the flags, and else runs to its
end.  The registers, the lazy information and the memory of the guest stay the
same. -/
theorem Jcc.generate_jumpsIf
    {inst : Instruction}
    (immediate : (inst.getOperand 0).isImm = true)
    (condition : Condition)
    {runtime : JumpTable.Runtime}
    (noReturn : ∀ state, runtime .rerouteStatic state = none)
    {env : Environment}
    (permits : env.PermitsEverything)
    {state : State}
    (aligned : TableAligned state)
    {flags : Flag -> Bool}
    (lazyFlags : LazyFlags runtime state flags) :
    ∃ after,
      (if condition.holds flags then
        (JumpTable.dispatch runtime env).Exits (Jcc.generate inst condition)
            state (.left (JumpTable.Entry.rerouteStatic.address state) after) ∧
          after.get addressDestination = inst.immediate
      else
        (JumpTable.dispatch runtime env).Exits (Jcc.generate inst condition)
          state (.ended after)) ∧
      (∀ reg, after.get (mapReg reg) = state.get (mapReg reg)) ∧
      fields after = fields state ∧
      ∀ address, savedBytes ≤ (address - state.get contextAddress).toNat ->
        after.mem address = state.mem address := by
  have jump : Jcc.generateJump inst = appendEob inst.immediate := by
    rw [Jcc.generateJump, if_pos immediate]
  have short : (appendEob inst.immediate).length < 1000 := by
    simp [appendEob, loadAddress, JumpTable.jumpTableEntry]
  obtain ⟨after, unchanged, outcome⟩ := Jcc.execute_jumpsIf short
    (fun env permits before aligned =>
      appendEob_jumps permits noReturn aligned inst.immediate)
    permits aligned lazyFlags condition
  rw [← jump] at outcome
  refine ⟨after, outcome, fun reg => ?_,
    unchanged.fields_eq contextAddress_not_mem, unchanged.memory⟩
  apply unchanged.registers
  intro member
  have others : ∀ register ∈ jumpScratch, isGuest register = false := by decide
  exact absurd (isGuest_mapReg reg) (by rw [others _ member]; decide)

/-- The carry and the overflow flag are clear. -/
def clearState : State where
  regs
    | .s10 => 0x2000
    | .s11 => 0x1000
    | _ => 0
  mem address :=
    if address = 0x1240 then
      JumpTable.Entry.overflowClear.offset.setWidth 8
    else if address = 0x1242 then
      JumpTable.Entry.carryClear.offset.setWidth 8
    else
      0

/-- The flags of a result that is zero. -/
def zeroFlags : Flag -> Bool
  | .zero | .parity => true
  | _ => false

/-- `jz 0x401000` -/
def jzInst : Instruction :=
  (InstructionClass.jcc .z).construct
    { type := .jz, operands := [.imm .qword], immediate := 0x401000 }

theorem clearState_lazyFlags :
    LazyFlags (fun _ _ => none) clearState zeroFlags where
  zero := by decide +kernel
  sign := by decide +kernel
  parity := by decide +kernel
  carry := ⟨.carryClear, by decide +kernel, Or.inl rfl⟩
  overflow := ⟨.overflowClear, by decide +kernel, Or.inl rfl⟩

theorem Jcc.generate_jumpsIf_jz :
    ∃ after,
      (if Condition.z.holds zeroFlags then
        (JumpTable.dispatch (fun _ _ => none) Stub.environment).Exits
            (Jcc.generate jzInst .z) clearState
            (.left (JumpTable.Entry.rerouteStatic.address clearState) after) ∧
          after.get addressDestination = jzInst.immediate
      else
        (JumpTable.dispatch (fun _ _ => none) Stub.environment).Exits
          (Jcc.generate jzInst .z) clearState (.ended after)) ∧
      (∀ reg, after.get (mapReg reg) = clearState.get (mapReg reg)) ∧
      fields after = fields clearState ∧
      ∀ address,
        savedBytes ≤ (address - clearState.get contextAddress).toNat ->
          after.mem address = clearState.mem address :=
  Jcc.generate_jumpsIf rfl .z (fun _ => rfl) (fun _ _ => rfl) (by decide)
    clearState_lazyFlags

end Oxtra

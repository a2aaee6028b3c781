import Oxtra.Instruction.Modifications
import Oxtra.Instructions.ConditionalSets
import Oxtra.Instructions.Lengths
import Oxtra.Instructions.Moves

/-!
# Conditional moves

The code of a conditional move runs to the move or over it.  A destination of
four bytes is cleared in front of the evaluation of the condition, so the
address of the source is made of the cleared register.
-/

namespace Oxtra

open RiscV
open Encoding
open Helper
open FlagInfo
open Instruction
open Fadec (Operand OperandSize)

namespace Cmov

/-! ## Running to the move or over it -/

/-- Code runs to the move behind it, or over that. -/
def RunsInto
    (env : Environment)
    (front move : List Inst)
    (state : State)
    (runs : Bool) : Prop :=
  ∃ middle, Unchanged jumpScratch state middle ∧
    if runs then env.Exits front state (.ended middle)
    else env.Exits (front ++ move) state (.ended middle)

section Runs

variable {env : Environment} {front move : List Inst} {state : State}
variable {runs : Bool}

/-- Code in front of the branches. -/
theorem RunsInto.behind
    {first : List Inst}
    {next : State}
    (ends : env.Exits first state (.ended next))
    (unchanged : Unchanged jumpScratch state next)
    (further : RunsInto (env.shift first.length) front move next runs) :
    RunsInto env (first ++ front) move state runs := by
  obtain ⟨middle, unchangedMiddle, outcome⟩ := further
  refine ⟨middle, unchanged.trans contextAddress_not_mem unchangedMiddle, ?_⟩
  cases runs with
  | true => exact ends.append outcome (by simp)
  | false =>
      rw [if_neg Bool.false_ne_true] at outcome ⊢
      rw [List.append_assoc]
      exact ends.append outcome (by simp)

variable {kind : Branch} {rs1 rs2 : Register}
variable (permits : env.PermitsEverything)

include permits

/-- The branch over the move. -/
theorem runsInto_skip (short : move.length < 1023) :
    RunsInto env [skip (btype kind rs1 rs2) move] move state
      (!kind.eval (state.get rs1) (state.get rs2)) := by
  refine ⟨state, Unchanged.refl _ state, ?_⟩
  by_cases taken : kind.eval (state.get rs1) (state.get rs2) = true
  · rw [taken]
    exact Environment.exits_branch_taken permits taken (branchOver_reach short)
  · rw [Bool.eq_false_iff.mpr taken]
    exact Environment.exits_branch_skipped permits taken ⟨1, rfl⟩ (by simp)

/-- A branch that is not taken. -/
theorem RunsInto.past
    {offset : BitVec 32}
    (skipped : ¬ kind.eval (state.get rs1) (state.get rs2) = true)
    (inside : RunsInto (env.shift 1) front move state runs) :
    RunsInto env (btype kind rs1 rs2 offset :: front) move state runs := by
  obtain ⟨middle, unchanged, outcome⟩ := inside
  refine ⟨middle, unchanged, ?_⟩
  cases runs with
  | true =>
      exact Environment.exits_branch_skipped permits skipped outcome (by simp)
  | false =>
      exact Environment.exits_branch_skipped permits skipped outcome (by simp)

/-- A branch over further branches and the move. -/
theorem RunsInto.branchOver
    (short : (front ++ move).length < 1023)
    (inside : RunsInto (env.shift 1) front move state runs) :
    RunsInto env (skip (btype kind rs1 rs2) (front ++ move) :: front) move
      state (!kind.eval (state.get rs1) (state.get rs2) && runs) := by
  by_cases taken : kind.eval (state.get rs1) (state.get rs2) = true
  · refine ⟨state, Unchanged.refl _ state, ?_⟩
    rw [taken]
    exact Environment.exits_branch_taken permits taken (branchOver_reach short)
  · rw [Bool.eq_false_iff.mpr taken]
    exact RunsInto.past permits taken inside

/-- A branch over further branches to the move. -/
theorem RunsInto.branchTo
    (short : front.length < 1023)
    (inside : RunsInto (env.shift 1) front move state runs) :
    RunsInto env (Oxtra.branchOver (btype kind rs1 rs2) front) move state
      (kind.eval (state.get rs1) (state.get rs2) || runs) := by
  by_cases taken : kind.eval (state.get rs1) (state.get rs2) = true
  · refine ⟨state, Unchanged.refl _ state, ?_⟩
    rw [taken]
    exact Environment.exits_branch_taken permits taken (branchOver_reach short)
  · rw [Bool.eq_false_iff.mpr taken]
    exact RunsInto.past permits taken inside

end Runs

/-! ## Conditions -/

/-- The code of a conditional move in front of the move. -/
def front (move : List Inst) : Condition -> List Inst
  | .a =>
      let further := evaluateCarry ++ [skip (bnqz .t4) move]
      evaluateZero .t4 ++ skip (bnqz .t4) (further ++ move) :: further
  | .be =>
      evaluateZero .t4 ++
        branchOver (bnqz .t4) (evaluateCarry ++ [skip (beqz .t4) move])
  | .g =>
      let further := evaluateSign .t0 .t5 ++ evaluateOverflow ++
        [skip (bne .t0 .t4) move]
      evaluateZero .t4 ++ skip (bnqz .t4) (further ++ move) :: further
  | .le =>
      evaluateZero .t4 ++
        branchOver (bnqz .t4)
          (evaluateSign .t0 .t5 ++ evaluateOverflow ++
            [skip (beq .t0 .t4) move])
  | .ge =>
      evaluateSign .t0 .t5 ++ evaluateOverflow ++ [skip (bne .t0 .t4) move]
  | .l =>
      evaluateSign .t0 .t5 ++ evaluateOverflow ++ [skip (beq .t0 .t4) move]
  | .c => evaluateCarry ++ [skip (beqz .t4) move]
  | .nc => evaluateCarry ++ [skip (bnqz .t4) move]
  | .o => evaluateOverflow ++ [skip (beqz .t4) move]
  | .no => evaluateOverflow ++ [skip (bnqz .t4) move]
  | .p => evaluateParity .t4 .t5 ++ [skip (beqz .t4) move]
  | .np => evaluateParity .t4 .t5 ++ [skip (bnqz .t4) move]
  | .s => evaluateSign .t4 .t0 ++ [skip (beqz .t4) move]
  | .ns => evaluateSign .t4 .t0 ++ [skip (bnqz .t4) move]
  | .z => evaluateZero .t4 ++ [skip (beqz .t4) move]
  | .nz => evaluateZero .t4 ++ [skip (bnqz .t4) move]

/-- The move is behind the code for every condition. -/
theorem execute_eq (move : List Inst) (condition : Condition) :
    execute move condition = front move condition ++ move := by
  cases condition <;>
    simp only [execute, front, branchOver, skip, List.append_assoc,
      List.cons_append, List.nil_append]

/-- The code in front of the move accesses the context only. -/
theorem front_hidden (move : List Inst) (condition : Condition) :
    ∀ written ∈ front move condition,
      written.base = none ∨ written.base = some contextAddress := by
  have checked : (front move condition).all (fun written =>
      decide (written.base = none ∨
        written.base = some contextAddress)) = true := by
    cases condition <;> rfl
  intro written member
  exact of_decide_eq_true (List.all_eq_true.mp checked written member)

section Conditions

variable {move : List Inst} (short : move.length < 1000)
variable {runtime : JumpTable.Runtime} {env : Environment}
variable (permits : env.PermitsEverything)
variable {state : State} {flags : Flag -> Bool}

include short permits

/-- A branch on one flag, behind the code that evaluates it. -/
theorem runsInto_flag
    {code : List Inst}
    {flag : Bool}
    (ends : EndsWith (JumpTable.dispatch runtime env) code jumpScratch state
      .t4 flag) :
    RunsInto (JumpTable.dispatch runtime env)
        (code ++ [skip (bnqz .t4) move]) move state (!flag) ∧
      RunsInto (JumpTable.dispatch runtime env)
        (code ++ [skip (beqz .t4) move]) move state flag := by
  obtain ⟨next, exits, value, unchanged⟩ := ends
  let later := (JumpTable.dispatch runtime env).shift code.length
  have permitsLater : later.PermitsEverything := permits
  constructor
  · have branches := @runsInto_skip later move next .bne .t4 .zero permitsLater
      (by omega)
    rw [value, bit_bne_get_zero] at branches
    exact RunsInto.behind exits unchanged branches
  · have branches := @runsInto_skip later move next .beq .t4 .zero permitsLater
      (by omega)
    rw [value, bit_beq_get_zero, Bool.not_not] at branches
    exact RunsInto.behind exits unchanged branches

variable (aligned : TableAligned state)
variable (lazyFlags : LazyFlags runtime state flags)

include aligned lazyFlags

/-- A branch that compares the sign and the overflow flag. -/
theorem runsInto_signOverflow :
    RunsInto (JumpTable.dispatch runtime env)
        (evaluateSign .t0 .t5 ++ evaluateOverflow ++
          [skip (bne .t0 .t4) move]) move state
        (flags .sign == flags .overflow) ∧
      RunsInto (JumpTable.dispatch runtime env)
        (evaluateSign .t0 .t5 ++ evaluateOverflow ++
          [skip (beq .t0 .t4) move]) move state
        (flags .sign != flags .overflow) := by
  obtain ⟨next, exits, sign, overflow, unchanged⟩ :=
    signOverflow_ends permits aligned lazyFlags
  let later := (JumpTable.dispatch runtime env).shift
    (evaluateSign .t0 .t5 ++ evaluateOverflow).length
  have permitsLater : later.PermitsEverything := permits
  have differ : Branch.bne.eval (bit (flags .sign)) (bit (flags .overflow)) =
      !(flags .sign == flags .overflow) := by
    cases flags .sign <;> cases flags .overflow <;> rfl
  have equal : Branch.beq.eval (bit (flags .sign)) (bit (flags .overflow)) =
      !(flags .sign != flags .overflow) := by
    cases flags .sign <;> cases flags .overflow <;> rfl
  constructor
  · have branches := @runsInto_skip later move next .bne .t0 .t4 permitsLater
      (by omega)
    rw [sign, overflow, differ, Bool.not_not] at branches
    exact RunsInto.behind exits unchanged branches
  · have branches := @runsInto_skip later move next .beq .t0 .t4 permitsLater
      (by omega)
    rw [sign, overflow, equal, Bool.not_not] at branches
    exact RunsInto.behind exits unchanged branches

omit short aligned in
/-- Code behind the zero flag: a branch over all of it, or to the move. -/
theorem runsInto_zero
    {code : List Inst}
    {runs : Bool}
    (shortCode : (code ++ move).length < 1023)
    (inside : ∀ env : Environment, env.PermitsEverything ->
      ∀ next, Unchanged jumpScratch state next ->
        RunsInto (JumpTable.dispatch runtime env) code move next runs) :
    RunsInto (JumpTable.dispatch runtime env)
        (evaluateZero .t4 ++ skip (bnqz .t4) (code ++ move) :: code) move state
        (!flags .zero && runs) ∧
      RunsInto (JumpTable.dispatch runtime env)
        (evaluateZero .t4 ++ branchOver (bnqz .t4) code) move state
        (flags .zero || runs) := by
  obtain ⟨next, exits, value, unchanged⟩ :=
    @evaluateZero_ends runtime env state flags permits lazyFlags
  let later := env.shift (evaluateZero .t4).length
  have permitsLater : (JumpTable.dispatch runtime later).PermitsEverything :=
    permits
  have behind := inside (later.shift 1) permits next unchanged
  rw [List.length_append] at shortCode
  constructor
  · have branches := @RunsInto.branchOver (JumpTable.dispatch runtime later)
      code move next runs .bne .t4 .zero permitsLater
      (by rw [List.length_append]; exact shortCode) behind
    rw [value, bit_bne_get_zero] at branches
    exact RunsInto.behind exits unchanged branches
  · have branches := @RunsInto.branchTo (JumpTable.dispatch runtime later)
      code move next runs .bne .t4 .zero permitsLater (by omega) behind
    rw [value, bit_bne_get_zero] at branches
    exact RunsInto.behind exits unchanged branches

/-- The code runs to the move if and only if the condition holds. -/
theorem front_runsInto (condition : Condition) :
    RunsInto (JumpTable.dispatch runtime env) (front move condition) move state
      (condition.holds flags) := by
  have scratch : evaluationScratch ⊆ jumpScratch := by decide
  have carryEnds : ∀ env : Environment, env.PermitsEverything ->
      ∀ next, Unchanged jumpScratch state next ->
        EndsWith (JumpTable.dispatch runtime env) evaluateCarry jumpScratch
          next .t4 (flags .carry) := fun _ permits _ unchanged =>
    (evaluateCarry_ends permits (lazyFlags.of_unchanged unchanged)
      (aligned.of_unchanged unchanged)).mono scratch
  have carry := runsInto_flag short permits
    (carryEnds env permits state (Unchanged.refl _ state))
  have overflow := runsInto_flag short permits
    ((evaluateOverflow_ends permits lazyFlags aligned).mono scratch)
  have parity := runsInto_flag short permits
    (evaluateParity_ends permits lazyFlags)
  have zero := runsInto_flag short permits
    (evaluateZero_ends permits lazyFlags)
  have sign := runsInto_flag short permits
    (@evaluateSign_ends runtime env state flags permits lazyFlags .t4 .t0
      (by decide) (by decide) (by decide) (by decide) (by decide))
  have compared := runsInto_signOverflow short permits aligned lazyFlags
  have carryShort : ∀ kind : Branch,
      (evaluateCarry ++ [skip (btype kind .t4 .zero) move] ++ move).length <
        1023 := by
    intro kind
    simp [evaluateCarry, JumpTable.jumpTableOffset]
    omega
  have signShort : ∀ kind : Branch,
      (evaluateSign .t0 .t5 ++ evaluateOverflow ++
        [skip (btype kind .t0 .t4) move] ++ move).length < 1023 := by
    intro kind
    simp [evaluateSign, evaluateOverflow, JumpTable.jumpTableOffset]
    omega
  cases condition with
  | a =>
      exact (runsInto_zero permits lazyFlags (carryShort .bne)
        fun _ permits next unchanged => (runsInto_flag short permits
          (carryEnds _ permits next unchanged)).1).1
  | be =>
      exact (runsInto_zero permits lazyFlags (carryShort .beq)
        fun _ permits next unchanged => (runsInto_flag short permits
          (carryEnds _ permits next unchanged)).2).2
  | g =>
      exact (runsInto_zero permits lazyFlags (signShort .bne)
        fun _ permits next unchanged => (runsInto_signOverflow short permits
          (aligned.of_unchanged unchanged)
          (lazyFlags.of_unchanged unchanged)).1).1
  | le =>
      exact (runsInto_zero permits lazyFlags (signShort .beq)
        fun _ permits next unchanged => (runsInto_signOverflow short permits
          (aligned.of_unchanged unchanged)
          (lazyFlags.of_unchanged unchanged)).2).2
  | ge => exact compared.1
  | l => exact compared.2
  | c => exact carry.2
  | nc => exact carry.1
  | o => exact overflow.2
  | no => exact overflow.1
  | p => exact parity.2
  | np => exact parity.1
  | s => exact sign.2
  | ns => exact sign.1
  | z => exact zero.2
  | nz => exact zero.1

end Conditions

/-! ## The move -/

/-- A conditional move into a register, without an override of a segment. -/
structure ConditionalMove
    (inst : Instruction)
    (condition : Condition) : Prop where
  conditional : inst.instructionClass = .cmov condition
  noOverride : inst.NoOverride
  destination : (inst.getOperand 0).isReg = true
  source : (inst.getOperand 1).isRm = true
  destinationValid : (inst.getOperand 0).valid = true
  sourceValid : (inst.getOperand 1).valid = true
  long : inst.destinationSize ≠ .byte
  sameSize : (inst.getOperand 1).size = inst.destinationSize

/-- The register that a source in the memory is loaded into. -/
def loadRegister (inst : Instruction) : Register :=
  if inst.destinationSize = .word then .t0 else inst.firstRegister

/-- The word that is moved, from the address that the code makes. -/
def movedWord (inst : Instruction) (state : State) : Word :=
  match inst.getOperand 1 with
  | .mem size base =>
      state.mem.load
        (inst.loadedAddress (.mem size base) (loadRegister inst) state)
        size.bytes
  | op => inst.operandValue op state

/-- The accesses of the move. -/
def movedAccesses (inst : Instruction) (state : State) : List Access :=
  match inst.getOperand 1 with
  | .mem size base =>
      [.load (inst.loadedAddress (.mem size base) (loadRegister inst) state)
        size.bytes]
  | _ => []

section Move

variable {inst : Instruction} {condition : Condition}
variable (form : ConditionalMove inst condition)

include form

/-- The destination is the lower part of its register. -/
theorem ConditionalMove.exists_destination :
    ∃ register, inst.getOperand 0 =
        .reg inst.destinationSize register .gpl ∧
      inst.firstRegister = mapReg register := by
  obtain ⟨size, register, type, first⟩ := Operand.exists_reg form.destination
  have valid := form.destinationValid
  have long := form.long
  rw [destinationSize, first] at long
  rw [first] at valid
  cases type with
  | gpl =>
      refine ⟨register, ?_, ?_⟩
      · rw [destinationSize, first]
        rfl
      · rw [firstRegister, first]
  | gph =>
      simp only [Operand.valid, Bool.and_eq_true, beq_iff_eq] at valid
      exact absurd valid.1.1 long

theorem ConditionalMove.guest : isGuest inst.firstRegister = true := by
  obtain ⟨register, -, place⟩ := form.exists_destination
  rw [place]
  exact isGuest_mapReg register

/-- Registers that the guest does not have are not the destination. -/
theorem ConditionalMove.apart
    {register : Register}
    (reserved : isGuest register = false) :
    register ≠ inst.firstRegister :=
  (ne_of_isGuest form.guest reserved).symm

/-- A source in a register is the lower part of its register. -/
theorem ConditionalMove.source_low
    {size : OperandSize}
    {register : Fadec.Register}
    {type : Fadec.RegisterType}
    (second : inst.getOperand 1 = .reg size register type) :
    type = .gpl ∧ size = inst.destinationSize := by
  have valid := form.sourceValid
  have same := form.sameSize
  have long := form.long
  rw [second] at valid same
  refine ⟨?_, same⟩
  cases type with
  | gpl => rfl
  | gph =>
      simp only [Operand.valid, Bool.and_eq_true, beq_iff_eq] at valid
      exact absurd (same.symm.trans valid.1.1) long

/-- The source is merged as its whole register is. -/
theorem ConditionalMove.merge_source
    {size : OperandSize}
    {register : Fadec.Register}
    {type : Fadec.RegisterType}
    (second : inst.getOperand 1 = .reg size register type)
    (state : State) :
    (RegisterAccess.ofSize inst.destinationSize).merge
        (state.get inst.firstRegister)
        (movedWord inst state) =
      (RegisterAccess.ofSize inst.destinationSize).merge
        (state.get inst.firstRegister)
        (state.get (mapReg register)) := by
  obtain ⟨rfl, same⟩ := form.source_low second
  apply RegisterAccess.merge_congr
  simp only [movedWord, second, operandValue, registerAccess, same,
    RegisterAccess.ofType]
  exact RegisterAccess.setWidth_part (RegisterAccess.ofSize_ne_hbyte _) _

/-- A source in the memory is loaded, and a word of it is merged into the
register. -/
theorem generateMove_memory
    {size : OperandSize}
    {base : Option Fadec.Register}
    (second : inst.getOperand 1 = .mem size base) :
    ∃ temp tail,
      generateMove inst = (inst.readFromMemory (.mem size base)
        (loadRegister inst) temp false).1 ++ tail ∧
      Scratch temp ∧ isGuest temp = false ∧ temp ≠ loadRegister inst ∧
      Scratch (loadRegister inst) ∧
      ComputesInto [inst.firstRegister, .t1] tail ∧
      ∀ pc state (mem : Memory) address,
        state.get (loadRegister inst) = mem.load address size.bytes ->
          (applyAll pc state tail).get inst.firstRegister =
            (RegisterAccess.ofSize inst.destinationSize).merge
              (state.get inst.firstRegister)
              (mem.load address size.bytes) := by
  have same := form.sameSize
  rw [second] at same
  change size = inst.destinationSize at same
  have guest := form.guest
  by_cases short : inst.destinationSize = .word
  · refine ⟨.t1, moveToRegister inst.firstRegister .t0 .word .t1 false, ?_⟩
    have into : loadRegister inst = .t0 := if_pos short
    rw [into]
    refine ⟨?_, by decide, by decide, by decide, by decide,
      moveToRegister_computesInto _ _, fun pc state mem address loaded => ?_⟩
    · simp only [generateMove, second, if_pos short]
    · rw [moveToRegister_value pc state (ne_of_isGuest guest (by decide))
        (by decide) (ne_of_isGuest guest (by decide)).symm (by decide)
        (by simp), loaded, short]
      rfl
  · refine ⟨.t0, [], ?_⟩
    have into : loadRegister inst = inst.firstRegister := if_neg short
    rw [into]
    refine ⟨?_, by decide, by decide,
      (ne_of_isGuest guest (by decide)).symm,
      ⟨ne_of_isGuest guest (by decide), ne_of_isGuest guest (by decide)⟩,
      ComputesInto.nil, fun pc state mem address loaded => ?_⟩
    · simp only [generateMove, second, if_neg short, List.append_nil]
    · have fits := load_truncated size mem address
      rw [applyAll_nil, loaded, ← same]
      cases size with
      | byte => exact absurd same.symm form.long
      | word => exact absurd same.symm short
      | dword => exact fits.symm
      | qword => rfl

/-- The register of the destination decides about the write. -/
theorem ConditionalMove.writtenRegisters_iff
    {state final : State}
    (others : ∀ register, isGuest register = true ->
      register ≠ inst.firstRegister -> final.get register = state.get register)
    (value : Word) :
    (∀ reg, final.get (mapReg reg) =
        writtenRegisters (inst.getOperand 0) value state reg) ↔
      final.get inst.firstRegister =
        (RegisterAccess.ofSize inst.destinationSize).merge
          (state.get inst.firstRegister) value := by
  obtain ⟨register, first, place⟩ := form.exists_destination
  rw [place] at others ⊢
  rw [first]
  exact @Instruction.writtenRegisters_iff inst.destinationSize register .gpl
    state final (fun reg different =>
      others _ (isGuest_mapReg reg) different) value

/-- Code writes the word that is moved and accesses nothing but its source. -/
structure MovesWord
    (inst : Instruction)
    (code : List Inst)
    (pc : Word)
    (state : State) : Prop where
  writes : WritesRegister (inst.getOperand 0) (movedWord inst state) state
    (applyAll pc state code)
  accesses : accessesApart contextAddress
      (Environment.straightTrace pc state code) =
    movedAccesses inst state
  straight : ∀ written ∈ code, written.isStraight = true

theorem generateMove_fromRegister
    {size : OperandSize}
    {source : Fadec.Register}
    {type : Fadec.RegisterType}
    (second : inst.getOperand 1 = .reg size source type)
    (pc : Word)
    (state : State) :
    MovesWord inst (generateMove inst) pc state := by
  have outside : ∀ temp, isGuest temp = false -> temp ≠ inst.firstRegister :=
    fun temp free => form.apart free
  have code : generateMove inst =
      moveToRegister inst.firstRegister (mapReg source)
        (RegisterAccess.ofSize inst.destinationSize) .t0 false := by
    simp only [generateMove, second]
  have notByte :
      RegisterAccess.ofSize inst.destinationSize ≠ .lbyte := by
    have long := form.long
    cases found : inst.destinationSize with
    | byte => exact absurd found long
    | _ => decide
  have computes := @moveToRegister_computesInto inst.firstRegister
    (mapReg source) .t0 (RegisterAccess.ofSize inst.destinationSize) false
  have value := moveToRegister_value pc state
    (outside .zero (by decide)).symm (by decide : Register.t0 ≠ .zero)
    (outside .t0 (by decide))
    (ne_of_isGuest (isGuest_mapReg source) (by decide)).symm
    (fun byte => absurd byte notByte)
  rw [← form.merge_source second] at value
  rw [code]
  refine ⟨⟨(form.writtenRegisters_iff ?_ _).mpr value, computes.mem _ _,
    computes.get _ _ ?_⟩, ?_, computes.straight⟩
  · intro other guestOther different
    exact computes.get _ _ (by
      simp [different, ne_of_isGuest guestOther])
  · simp only [List.mem_cons, List.not_mem_nil, or_false, not_or]
    exact ⟨outside _ (by decide), by decide⟩
  · rw [computes.accessesApart, movedAccesses, second]

theorem generateMove_fromMemory
    {size : OperandSize}
    {base : Option Fadec.Register}
    (second : inst.getOperand 1 = .mem size base)
    (pc : Word)
    (state : State) :
    MovesWord inst (generateMove inst) pc state := by
  have outside : ∀ temp, isGuest temp = false -> temp ≠ inst.firstRegister :=
    fun temp free => form.apart free
  obtain ⟨temp, tail, code, tempScratch, reserved, different, scratch,
    computes, merged⟩ := generateMove_memory form second
  have reached := @readBase_loadedAddress inst (.mem size base)
    (loadRegister inst) temp scratch tempScratch reserved different pc state
  have accesses := inst.readFromMemory_accesses pc state scratch
    tempScratch reached false
  have word : movedWord inst state = state.mem.load
      (inst.loadedAddress (.mem size base) (loadRegister inst) state)
      size.bytes := by
    simp only [movedWord, second]
  let reading := applyAll pc state
    (inst.readBase (.mem size base) (loadRegister inst) temp).1
  have applied : applyAll pc state (inst.readFromMemory (.mem size base)
        (loadRegister inst) temp false).1 =
      reading.set (loadRegister inst) (movedWord inst state) := by
    rw [inst.readFromMemory_apply pc state reached false,
      operandLoad_unsigned, word]
    rfl
  have kept : ∀ register, register ≠ loadRegister inst ->
      register ≠ temp -> (reading.set (loadRegister inst)
        (movedWord inst state)).get register = state.get register := by
    intro register notLoaded notTemp
    rw [State.set_get_of_ne _ _ notLoaded,
      inst.readBase_get pc state _ _ notLoaded notTemp]
  rw [code]
  refine ⟨?_, ?_, ?_⟩
  · rw [applyAll_append, applied]
    refine ⟨(form.writtenRegisters_iff ?_ _).mpr ?_, ?_, ?_⟩
    · intro other guestOther notFirst
      have notLoaded : other ≠ loadRegister inst := by
        rw [loadRegister]
        split
        · exact ne_of_isGuest guestOther (by decide)
        · exact notFirst
      rw [computes.get _ _ (by
          simp [notFirst, ne_of_isGuest guestOther]),
        kept _ notLoaded (ne_of_isGuest guestOther reserved)]
    · rw [merged _ _ state.mem _
          ((State.set_get_self _ _ scratch.1).trans word), ← word]
      by_cases short : inst.destinationSize = .word
      · have into : loadRegister inst = .t0 := if_pos short
        rw [kept]
        · rw [into]
          exact (outside .t0 (by decide)).symm
        · exact (outside temp reserved).symm
      · have long := form.long
        cases found : inst.destinationSize with
        | byte => exact absurd found long
        | word => exact absurd found short
        | dword | qword => rfl
    · rw [computes.mem, State.set_mem, inst.readBase_mem]
    · rw [computes.get _ _ (by
          simp only [List.mem_cons, List.not_mem_nil, or_false, not_or]
          exact ⟨outside _ (by decide), by decide⟩),
        kept _ scratch.2.symm tempScratch.2.symm]
  · rw [Environment.straightTrace_append, accessesApart_append, accesses,
      computes.accessesApart, List.append_nil, movedAccesses, second]
    rfl
  · intro written member
    rcases List.mem_append.mp member with read | further
    · exact inst.readFromMemory_straight _ _ _ written read
    · exact computes.straight written further

theorem generateMove_moves (pc : Word) (state : State) :
    MovesWord inst (generateMove inst) pc state := by
  cases second : inst.getOperand 1 with
  | none | imm =>
      have rm := form.source
      rw [second] at rm
      cases rm
  | reg => exact generateMove_fromRegister form second pc state
  | mem => exact generateMove_fromMemory form second pc state

end Move

/-! ## The state in front of the condition -/

/-- A destination of four bytes is cleared above them in front of the
condition. -/
def cleared (inst : Instruction) (state : State) : State :=
  if inst.destinationSize = .dword then
    state.set inst.firstRegister
      (((state.get inst.firstRegister).setWidth 32).setWidth 64)
  else
    state

/-- `generate` up to the condition. -/
def clearing (inst : Instruction) : List Inst :=
  if inst.destinationSize = .dword then
    [slli inst.firstRegister inst.firstRegister 32,
      srli inst.firstRegister inst.firstRegister 32]
  else
    []

theorem generate_eq (inst : Instruction) (condition : Condition) :
    generate inst condition = clearing inst ++
      (front (generateMove inst) condition ++ generateMove inst) := by
  rw [← execute_eq]
  rfl

theorem clearing_computesInto (inst : Instruction) :
    ComputesInto [inst.firstRegister] (clearing inst) := by
  unfold clearing
  split
  · exact ComputesInto.cons_iff.mpr
      ⟨Inst.computesInto_of_target rfl rfl (by simp),
        ComputesInto.cons_iff.mpr
          ⟨Inst.computesInto_of_target rfl rfl (by simp), ComputesInto.nil⟩⟩
  · exact ComputesInto.nil

section Cleared

variable {inst : Instruction} {condition : Condition}
variable (form : ConditionalMove inst condition) (state : State)

include form

theorem applyAll_clearing (pc : Word) :
    applyAll pc state (clearing inst) = cleared inst state := by
  have nonzero : inst.firstRegister ≠ .zero := (form.apart rfl).symm
  unfold clearing cleared
  split
  · simp only [applyAll_cons, applyAll_nil, apply_slli, apply_srli,
      State.set_get_self _ _ nonzero, State.set_set, truncate_eq]
  · rfl

/-- Nothing but the destination is changed by the clearing. -/
theorem cleared_get
    {register : Register}
    (other : register ≠ inst.firstRegister) :
    (cleared inst state).get register = state.get register := by
  rw [← applyAll_clearing form state 0]
  exact (clearing_computesInto inst).get _ _ (by simpa using other)

theorem cleared_mem : (cleared inst state).mem = state.mem := by
  rw [← applyAll_clearing form state 0]
  exact (clearing_computesInto inst).mem _ _

theorem cleared_fields : fields (cleared inst state) = fields state := by
  apply fields_congr (cleared_mem form state)
  exact cleared_get form state (form.apart rfl)

/-- The destination is cleared as by a write of its own bits. -/
theorem cleared_destination :
    (cleared inst state).get inst.firstRegister =
      (RegisterAccess.ofSize inst.destinationSize).merge
        (state.get inst.firstRegister)
        (inst.operandValue (inst.getOperand 0) state) := by
  obtain ⟨register, first, place⟩ := form.exists_destination
  have nonzero : inst.firstRegister ≠ .zero := (form.apart rfl).symm
  have value : inst.operandValue (inst.getOperand 0) state =
      (RegisterAccess.ofSize inst.destinationSize).part
        (state.get inst.firstRegister) := by
    rw [first, place]
    rfl
  have long := form.long
  rw [value, RegisterAccess.merge_congr _ _
    (RegisterAccess.setWidth_part (RegisterAccess.ofSize_ne_hbyte _) _),
    cleared]
  cases found : inst.destinationSize with
  | byte => exact absurd found long
  | word => exact (RegisterAccess.eq_merge_word_iff _ _).mpr rfl
  | dword =>
      rw [if_pos rfl, State.set_get_self _ _ nonzero]
      rfl
  | qword => rfl

end Cleared

/-! ## Moving if a condition holds -/

/-- A conditional move on x86: the destination is the source if the condition
holds, and what it was otherwise, and is written in both cases.  The other
registers of the guest, the memory and the lazy information stay the same. -/
structure MovesIf
    (inst : Instruction)
    (holds : Bool)
    (state : State)
    (accesses : List Access)
    (final : State) : Prop where
  accesses : holds = true ->
    accesses = inst.loadAccesses (inst.getOperand 1) state
  registers : ∀ reg, final.get (mapReg reg) =
    writtenRegisters (inst.getOperand 0)
      (inst.operandValue (inst.getOperand (if holds then 1 else 0)) state)
      state reg
  memory : ∀ address,
    savedBytes ≤ (address - state.get contextAddress).toNat ->
      final.mem address = state.mem address
  fields : fields final = fields state

/-- Some code moves if a condition holds. -/
def Moves
    (env : Environment)
    (code : List Inst)
    (inst : Instruction)
    (holds : Bool)
    (state : State) : Prop :=
  ∃ visited final, env.Traces code state visited (.ended final) ∧
    MovesIf inst holds state (accessesApart contextAddress visited) final

/-- A source in the memory is outside of what calls save in the context. -/
def SourceBeside (inst : Instruction) (state : State) : Prop :=
  match inst.getOperand 1 with
  | .mem size base => ∀ index < size.bytes,
      savedBytes ≤ (inst.guestAddress (.mem size base) state +
        BitVec.ofNat 64 index - state.get contextAddress).toNat
  | _ => True

/-- The address of the source is still made behind the clearing: a small
displacement is added without a carry out of the address size, and a register
that is overwritten before a large one is added is replaced by what it is
overwritten with. -/
structure AddressKept
    (inst : Instruction)
    (op : Operand)
    (state : State) : Prop where
  short : inst.smallDisplacement = true ->
    inst.linearAddress op (cleared inst state) = inst.operandAddress op state
  kept : inst.smallDisplacement = false ->
    ¬ inst.Clobbers op (loadRegister inst) ->
      inst.operandAddress op (cleared inst state) =
        inst.operandAddress op state
  exchanged : inst.smallDisplacement = false ->
    inst.Clobbers op (loadRegister inst) ->
      inst.truncateAddress (inst.linearAddress op (cleared inst state) -
          (cleared inst state).get (loadRegister inst) +
        inst.clobberingValue op (cleared inst state)) =
          inst.operandAddress op state

section Source

variable {inst : Instruction} {condition : Condition}
variable (form : ConditionalMove inst condition) (state : State)

include form

/-- The code loads from the address of the source if and only if the address is
still made. -/
theorem loadedAddress_cleared_iff (op : Operand) :
    inst.loadedAddress op (loadRegister inst) (cleared inst state) =
        inst.guestAddress op state ↔
      AddressKept inst op state := by
  rw [form.noOverride.guestAddress, loadedAddress,
    form.noOverride.segmentBase, BitVec.zero_add]
  by_cases small : inst.smallDisplacement = true
  · rw [if_pos small]
    constructor
    · intro same
      exact ⟨fun _ => same, fun large => by simp [small] at large,
        fun large => by simp [small] at large⟩
    · intro kept
      exact kept.short small
  · have large : inst.smallDisplacement = false := by simpa using small
    rw [if_neg small]
    by_cases clobbers : inst.Clobbers op (loadRegister inst)
    · rw [if_pos clobbers]
      constructor
      · intro same
        exact ⟨fun again => absurd again small,
          fun _ free => absurd clobbers free, fun _ _ => same⟩
      · intro kept
        exact kept.exchanged large clobbers
    · rw [if_neg clobbers]
      constructor
      · intro same
        exact ⟨fun again => absurd again small, fun _ _ => same,
          fun _ again => absurd again clobbers⟩
      · intro kept
        exact kept.kept large clobbers

variable {state} {middle : State}
variable (unchanged : Unchanged jumpScratch (cleared inst state) middle)

include unchanged

/-- The temporaries of the condition are no part of an address. -/
theorem loadedAddress_middle (op : Operand) :
    inst.loadedAddress op (loadRegister inst) middle =
      inst.loadedAddress op (loadRegister inst) (cleared inst state) := by
  have guest := unchanged.guest_eq
  have linear := inst.linearAddress_congr guest op
  have value : inst.clobberingValue op middle =
      inst.clobberingValue op (cleared inst state) := by
    rw [clobberingValue, clobberingValue, scaledIndex, scaledIndex,
      registerValue_congr guest]
  rw [loadedAddress, loadedAddress, form.noOverride.segmentBase,
    form.noOverride.segmentBase, linear, value]
  by_cases clobbers : inst.Clobbers op (loadRegister inst)
  · obtain ⟨register, -, place⟩ := form.exists_destination
    have into : loadRegister inst = mapReg register := by
      rw [loadRegister] at clobbers ⊢
      by_cases short : inst.destinationSize = .word
      · rw [if_pos short] at clobbers
        exact absurd clobbers (inst.not_clobbers_of_reserved op (by decide))
      · rw [if_neg short, place]
    rw [into, guest register]
  · rw [if_neg clobbers, if_neg clobbers]

/-- The source is moved from the address that it has. -/
theorem movedWord_low
    (beside : SourceBeside inst state)
    (kept : (inst.getOperand 1).isMem = true ->
      AddressKept inst (inst.getOperand 1) state) :
    (movedWord inst middle).setWidth
        (RegisterAccess.ofSize inst.destinationSize).bits =
      (inst.operandValue (inst.getOperand 1) state).setWidth
        (RegisterAccess.ofSize inst.destinationSize).bits := by
  have notHigh := RegisterAccess.ofSize_ne_hbyte inst.destinationSize
  obtain ⟨first, destination, place⟩ := form.exists_destination
  cases second : inst.getOperand 1 with
  | none | imm =>
      have rm := form.source
      rw [second] at rm
      cases rm
  | reg size source type =>
      obtain ⟨rfl, rfl⟩ := form.source_low second
      simp only [movedWord, second, operandValue, registerAccess,
        RegisterAccess.ofType, RegisterAccess.setWidth_part notHigh]
      change (middle.get (mapReg source)).setWidth _ =
        (state.get (mapReg source)).setWidth _
      rw [unchanged.guest_eq source]
      by_cases same : mapReg source = inst.firstRegister
      · have value : inst.operandValue (inst.getOperand 0) state =
            (RegisterAccess.ofSize inst.destinationSize).part
              (state.get inst.firstRegister) := by
          rw [destination, place]
          rfl
        rw [same, cleared_destination form, RegisterAccess.merge_setWidth
          notHigh, value, RegisterAccess.setWidth_part notHigh]
      · rw [cleared_get form state same]
  | mem size base =>
      have address := (loadedAddress_cleared_iff form state _).mpr
        (kept (by rw [second]; rfl))
      rw [← loadedAddress_middle form unchanged, second] at address
      rw [SourceBeside, second] at beside
      have context : (cleared inst state).get contextAddress =
          state.get contextAddress := cleared_get form state (form.apart rfl)
      simp only [movedWord, second, operandValue, address]
      rw [Memory.load_congr fun index below => ?_]
      rw [unchanged.memory _ (by rw [context]; exact beside index below),
        cleared_mem form]

/-- The rest of the destination is what it was in front of the clearing, as
far as a write keeps it. -/
theorem merge_middle (value : Word) :
    (RegisterAccess.ofSize inst.destinationSize).merge
        (middle.get inst.firstRegister) value =
      (RegisterAccess.ofSize inst.destinationSize).merge
        (state.get inst.firstRegister) value := by
  obtain ⟨register, -, place⟩ := form.exists_destination
  rw [place, unchanged.guest_eq register, cleared]
  cases found : inst.destinationSize with
  | dword => rfl
  | _ => rw [if_neg (by decide)]

/-- The registers of the guest but the destination are kept. -/
theorem middle_get
    {register : Register}
    (guest : isGuest register = true)
    (other : register ≠ inst.firstRegister) :
    middle.get register = state.get register := by
  have free : register ∉ jumpScratch := by
    intro member
    have others : ∀ register ∈ jumpScratch, isGuest register = false := by
      decide
    rw [others _ member] at guest
    cases guest
  rw [unchanged.registers _ free, cleared_get form state other]

theorem middle_memory
    {address : Word}
    (outside : savedBytes ≤ (address - state.get contextAddress).toNat) :
    middle.mem address = state.mem address := by
  have context : (cleared inst state).get contextAddress =
      state.get contextAddress := cleared_get form state (form.apart rfl)
  rw [unchanged.memory _ (by rw [context]; exact outside), cleared_mem form]

theorem middle_fields : fields middle = fields state := by
  rw [unchanged.fields_eq contextAddress_not_mem, cleared_fields form]

/-- Running over the move is right. -/
theorem movesIf_over (accesses : List Access) :
    MovesIf inst false state accesses middle := by
  refine ⟨fun holds => absurd holds Bool.false_ne_true, ?_,
    fun address outside => middle_memory form unchanged outside,
    middle_fields form unchanged⟩
  apply (form.writtenRegisters_iff (fun register guest other =>
    middle_get form unchanged guest other) _).mpr
  obtain ⟨register, -, place⟩ := form.exists_destination
  rw [place, unchanged.guest_eq register, ← place, cleared_destination form]
  rfl

/-- Running to the move is right if and only if the source is loaded from its
address. -/
theorem movesIf_into
    (beside : SourceBeside inst state)
    (pc : Word) :
    MovesIf inst true state
        (accessesApart contextAddress (Environment.straightTrace pc middle
          (generateMove inst)))
        (applyAll pc middle (generateMove inst)) ↔
      ((inst.getOperand 1).isMem = true ->
        AddressKept inst (inst.getOperand 1) state) := by
  obtain ⟨written, accessed, -⟩ := generateMove_moves form pc middle
  have address := loadedAddress_cleared_iff form state (inst.getOperand 1)
  rw [← loadedAddress_middle form unchanged] at address
  constructor
  · intro moves isMem
    have same := accessed.symm.trans (moves.accesses rfl)
    rw [← address]
    cases second : inst.getOperand 1 with
    | mem size base =>
        simp only [movedAccesses, loadAccesses, second, List.cons.injEq,
          Access.load.injEq, and_true] at same
        exact same
    | _ =>
        rw [second] at isMem
        cases isMem
  · intro kept
    refine ⟨fun _ => accessed.trans ?_, ?_, fun place outside => ?_, ?_⟩
    · cases second : inst.getOperand 1 with
      | mem size base =>
          rw [second] at address kept
          simp only [movedAccesses, loadAccesses, second,
            address.mpr (kept rfl)]
      | _ => simp only [movedAccesses, loadAccesses, second]
    · obtain ⟨register, first, place⟩ := form.exists_destination
      intro reg
      have moved := written.registers reg
      rw [first] at moved ⊢
      simp only [writtenRegisters, registerAccess,
        RegisterAccess.ofType] at moved ⊢
      by_cases same : mapReg reg = mapRegType register .gpl
      · rw [if_pos same] at moved ⊢
        change mapReg reg = mapReg register at same
        rw [moved, same, ← place, merge_middle form unchanged]
        exact RegisterAccess.merge_congr _ _
          (movedWord_low form unchanged beside kept)
      · rw [if_neg same] at moved ⊢
        rw [moved]
        exact middle_get form unchanged (isGuest_mapReg reg)
          (by rw [place]; exact same)
    · rw [written.memory, middle_memory form unchanged outside]
    · rw [fields_congr written.memory written.context,
        middle_fields form unchanged]

end Source

/-! ## The whole code -/

section Whole

variable {inst : Instruction} {condition : Condition}
variable (form : ConditionalMove inst condition)

include form

/-- The code clears, evaluates the condition and runs the move or not. -/
theorem generate_runs
    {runtime : JumpTable.Runtime}
    {env : Environment}
    (permits : env.PermitsEverything)
    {state : State}
    (aligned : TableAligned state)
    {flags : Flag -> Bool}
    (lazyFlags : LazyFlags runtime (cleared inst state) flags) :
    ∃ middle visited pc,
      Unchanged jumpScratch (cleared inst state) middle ∧
      if condition.holds flags then
        (JumpTable.dispatch runtime env).Traces (generate inst condition) state
            visited (.ended (applyAll pc middle (generateMove inst))) ∧
          accessesApart contextAddress visited =
            accessesApart contextAddress
              (Environment.straightTrace pc middle (generateMove inst))
      else
        (JumpTable.dispatch runtime env).Traces (generate inst condition) state
          visited (.ended middle) := by
  have dispatched : (JumpTable.dispatch runtime env).PermitsEverything :=
    permits
  let later := env.shift (clearing inst).length
  have computes := clearing_computesInto inst
  have first := Environment.traces_straight computes.straight
    (dispatched.permitsAll state (clearing inst))
  rw [applyAll_clearing form] at first
  have alignedLater : TableAligned (cleared inst state) := by
    rw [TableAligned, cleared_get form state (form.apart rfl)]
    exact aligned
  obtain ⟨middle, unchanged, outcome⟩ := @front_runsInto (generateMove inst)
    (by have length := generateMove_length inst; omega) runtime later permits
    (cleared inst state) flags alignedLater lazyFlags condition
  let behind := (JumpTable.dispatch runtime later).shift
    (front (generateMove inst) condition).length
  refine ⟨middle, ?_⟩
  rw [generate_eq]
  cases holds : condition.holds flags with
  | false =>
      rw [holds, if_neg Bool.false_ne_true] at outcome
      obtain ⟨visited, traces⟩ := outcome.traces
      exact ⟨_, behind.origin, unchanged, first.append traces (by simp)⟩
  | true =>
      rw [holds, if_pos rfl] at outcome
      obtain ⟨visited, traces⟩ := outcome.traces
      have permitsBehind : behind.PermitsEverything := permits
      have straight := (generateMove_moves form 0 middle).straight
      have last := @Environment.traces_straight behind middle
        (generateMove inst) straight (permitsBehind.permitsAll middle _)
      have nothing : accessesApart contextAddress visited = [] :=
        accessesApart_eq_nil fun visit member =>
          front_hidden _ condition _ (traces.mem_code member)
      refine ⟨_, behind.origin, unchanged,
        first.append (traces.append last (by simp)) (by simp), ?_⟩
      rw [accessesApart_append, accessesApart_append, computes.accessesApart,
        nothing, List.nil_append, List.nil_append]

/-- The code of a conditional move moves its source if the condition holds, and
keeps its destination otherwise, if and only if the address of a source in the
memory that is moved is still made behind the clearing of the destination.  A
function that is called for a flag is called behind the clearing too. -/
theorem generate_movesIf_iff
    {runtime : JumpTable.Runtime}
    {env : Environment}
    (permits : env.PermitsEverything)
    (symbols : HostSymbols)
    (entries : Nat)
    {state : State}
    (aligned : TableAligned state)
    {flags : Flag -> Bool}
    (lazyFlags : LazyFlags runtime (cleared inst state) flags)
    (beside : SourceBeside inst state) :
    (∃ code, inst.generate symbols entries = some code ∧
      Moves (JumpTable.dispatch runtime env) code inst
        (condition.holds flags) state) ↔
      (condition.holds flags = true -> (inst.getOperand 1).isMem = true ->
        AddressKept inst (inst.getOperand 1) state) := by
  have generated : inst.generate symbols entries =
      some (generate inst condition) := by
    rw [Instruction.generate, form.conditional]
  obtain ⟨middle, visited, pc, unchanged, runs⟩ :=
    @generate_runs inst condition form runtime env permits state aligned flags
      lazyFlags
  cases holds : condition.holds flags with
  | false =>
      rw [holds, if_neg Bool.false_ne_true] at runs
      simp only [Bool.false_eq_true, false_implies, iff_true]
      exact ⟨_, generated, visited, middle, runs,
        movesIf_over form unchanged _⟩
  | true =>
      rw [holds, if_pos rfl] at runs
      obtain ⟨traces, accesses⟩ := runs
      have moves := movesIf_into form unchanged beside pc
      rw [← accesses] at moves
      simp only [true_implies]
      rw [← moves]
      constructor
      · rintro ⟨code, same, other, final, otherTraces, found⟩
        rw [generated, Option.some.injEq] at same
        subst same
        obtain ⟨rfl, ends⟩ := otherTraces.unique traces
        cases ends
        exact found
      · intro found
        exact ⟨_, generated, visited, _, traces, found⟩

end Whole

/-- `cmovz eax, [rax]` -/
def cmovzEaxRax : Instruction :=
  (InstructionClass.cmov .z).construct
    { type := .cmovz, operands := [.reg .dword 0 .gpl, .mem .dword (some 0)] }

theorem cmovzEaxRax_conditionalMove : ConditionalMove cmovzEaxRax .z where
  conditional := rfl
  noOverride := ⟨by decide, by decide⟩
  destination := rfl
  source := rfl
  destinationValid := rfl
  sourceValid := rfl
  long := by decide
  sameSize := rfl

/-- The address is in rax, and a five is there. -/
def fiveAt (source : Word) : State where
  regs register := if register = rax then source else clearState.regs register
  mem address := if address = source then 5 else clearState.mem address

theorem fiveAt_lazyFlags
    {source : Word}
    (isSource : source = 0x4000 ∨ source = 0x100000000) :
    LazyFlags (fun _ _ => none) (cleared cmovzEaxRax (fiveAt source))
      zeroFlags := by
  rcases isSource with rfl | rfl <;> exact
    { zero := by decide +kernel
      sign := by decide +kernel
      parity := by decide +kernel
      carry := ⟨.carryClear, by decide +kernel, Or.inl rfl⟩
      overflow := ⟨.overflowClear, by decide +kernel, Or.inl rfl⟩ }

/-- The condition holds, and five is moved. -/
theorem generate_movesIf_iff_cmovzEaxRax :
    ∃ code, cmovzEaxRax.generate Instruction.sampleSymbols 0 = some code ∧
      Moves (JumpTable.dispatch (fun _ _ => none) Stub.environment) code
        cmovzEaxRax (Condition.z.holds zeroFlags) (fiveAt 0x4000) := by
  have beside : SourceBeside cmovzEaxRax (fiveAt 0x4000) := by
    have apart : ∀ index < 4, savedBytes ≤
        (cmovzEaxRax.guestAddress (.mem .dword (some 0)) (fiveAt 0x4000) +
          BitVec.ofNat 64 index -
            (fiveAt 0x4000).get contextAddress).toNat := by
      decide +kernel
    exact apart
  exact (generate_movesIf_iff cmovzEaxRax_conditionalMove (fun _ _ => rfl)
    Instruction.sampleSymbols 0 (by decide) (fiveAt_lazyFlags (Or.inl rfl))
    beside).mpr fun _ _ =>
      ⟨by decide +kernel, by decide +kernel, by decide +kernel⟩

/-- A five is at the address 2^32. -/
abbrev highAddress : State := fiveAt 0x100000000

/-- The condition holds and the source is five, but the address has been
cleared: zero is moved. -/
theorem cmovzEaxRax_misses :
    Condition.z.holds zeroFlags = true ∧
      cmovzEaxRax.operandValue (cmovzEaxRax.getOperand 1) highAddress = 5 ∧
      ∃ code, cmovzEaxRax.generate Instruction.sampleSymbols 0 = some code ∧
        ¬ ∃ visited final,
          (JumpTable.dispatch (fun _ _ => none) Stub.environment).Traces code
              highAddress visited (.ended final) ∧
            final.get rax = 5 := by
  have form := cmovzEaxRax_conditionalMove
  have lazyFlags := fiveAt_lazyFlags (Or.inr rfl)
  refine ⟨rfl, by decide +kernel, _, rfl, ?_⟩
  obtain ⟨middle, visited, pc, unchanged, runs⟩ :=
    @generate_runs cmovzEaxRax .z form (fun _ _ => none) Stub.environment
      (fun _ _ => rfl) highAddress (by decide) zeroFlags lazyFlags
  obtain ⟨traces, -⟩ : _ ∧ _ := runs
  rintro ⟨other, final, otherTraces, moved⟩
  obtain ⟨-, ends⟩ := otherTraces.unique traces
  cases ends
  have written := (generateMove_moves form pc middle).writes.registers 0
  have address := loadedAddress_middle form unchanged (.mem .dword (some 0))
  have nothing : movedWord cmovzEaxRax middle = 0 := by
    change middle.mem.load (cmovzEaxRax.loadedAddress (.mem .dword (some 0))
      (loadRegister cmovzEaxRax) middle) 4 = 0
    have outside : ∀ index < 4, savedBytes ≤
        (cmovzEaxRax.loadedAddress (.mem .dword (some 0))
            (loadRegister cmovzEaxRax) (cleared cmovzEaxRax highAddress) +
          BitVec.ofNat 64 index - highAddress.get contextAddress).toNat := by
      decide +kernel
    rw [address, Memory.load_congr fun index below =>
      middle_memory form unchanged (outside index below)]
    decide +kernel
  rw [nothing] at written
  have five : (5 : Word) = 0 := moved.symm.trans written
  exact absurd five (by decide)

end Cmov

end Oxtra

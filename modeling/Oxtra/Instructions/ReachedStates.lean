import Oxtra.Instructions.BitTests
import Oxtra.Instructions.Divisions
import Oxtra.Instructions.FlagTargets
import Oxtra.Instructions.LimbAddition
import Oxtra.Instructions.Products
import Oxtra.Instructions.StringComparisons
import Oxtra.Library.RiscV.Endings

/-!
# Flags in every reached state

Wherever the code of instructions has led, the carry and the overflow flag are
evaluated by routines for them, or they are reported as not supported.
-/

namespace Oxtra

open RiscV
open Encoding
open Helper
open FlagInfo
open Fadec (Operand OperandSize)
open JumpTable (Runtime)

section Classes

variable (symbols : Instruction.HostSymbols) (inst : Instruction)

/-! ## Products -/

namespace Mul

theorem translateFactor_keepsTargets
    (op : Operand)
    {temp : Register}
    (free : Free temp)
    (signed : Bool) :
    KeepsTargets (translateFactor inst op temp signed).code :=
  translateOperand_keepsTargets inst op free (by decide) false true signed false

theorem sources_keepsTargets :
    KeepsTargets (sources inst).1.code ∧ KeepsTargets (sources inst).2.code := by
  have factor (op : Operand) {temp : Register} (free : Free temp) :=
    translateFactor_keepsTargets inst op free
  unfold sources
  split
  · exact ⟨factor _ (by decide) true, factor _ (by decide) true⟩
  · exact ⟨factor _ (by decide) true, factor _ (by decide) true⟩
  · exact ⟨.of_computesInto (loadFromRegister_computesInto _ _ _ _) (by simp),
      factor _ (by decide) _⟩

theorem multiply_keepsTargets
    (size : OperandSize)
    (signed upper : Bool)
    {lower : Register}
    (free : Free lower)
    (first second : Register) :
    KeepsTargets (if size = .qword then
        multiplyLong signed upper lower first second
      else
        multiplyShort size upper lower first second) := by
  have registers : ∀ register ∈ [lower, rdx, .t0, .t4], Free register := by
    simp only [List.forall_mem_cons, List.not_mem_nil, false_imp_iff,
      implies_true, and_true]
    exact ⟨free, by decide, by decide, by decide⟩
  split
  · exact .of_computesInto (multiplyLong_computesInto _ _ _ _ _) registers
  · exact .of_computesInto (multiplyShort_computesInto _ _ _ _ _) registers

theorem generate_keepsTargets : KeepsTargets (generate symbols inst) := by
  have lower {upper : Bool} :
      Free (if upper then rax else inst.firstRegister) := by
    split
    · decide
    · exact firstRegister_free inst
  exact ((((sources_keepsTargets inst).1.append
    (sources_keepsTargets inst).2).append
      (multiply_keepsTargets _ _ _ lower _ _)).append
        (updateOverflowUnsupported_keepsTargets inst (by decide) (by decide)
          _)).append
            (updateCarryUnsupported_keepsTargets inst (by decide) (by decide) _)

end Mul

/-! ## Shifts and rotations -/

theorem ShiftCl.execute_keepsTargets
    {dst : Register}
    (free : Free dst)
    (src : Register)
    (operation : ShiftCl) :
    KeepsTargets (operation.execute symbols inst dst src) := by
  cases operation <;>
    refine Shift.execute_keepsTargets symbols inst ?_ ?_ free _ <;> split <;> rfl

theorem ShiftCl.generate_keepsTargets (operation : ShiftCl) :
    KeepsTargets (operation.generate symbols inst) := by
  have executes {dst : Register} (free : Free dst) (src : Register) :=
    ShiftCl.execute_keepsTargets symbols inst free src operation
  have computes {dst : Register} {computation : Inst}
      (straight : computation.isStraight = true)
      (target : computation.target = some dst) (free : Free dst) :=
    keepsTargets_compute straight target free
  unfold ShiftCl.generate
  split
  · rename_i number type operand
    have free := free_mapRegType number type
    unfold ShiftCl.generateRegister
    simp only
    split
    · exact executes free _
    · exact (executes free _).append
        ((computes rfl rfl free).append (computes rfl rfl free))
    · exact (computes rfl rfl (by decide : Free .t0)).append
        ((executes (by decide) _).append
          (moveToRegister_keepsTargets free _ _ (by decide : Free .t1) _))
    · exact (executes (by decide) _).append
        (moveToRegister_keepsTargets free _ _ (by decide : Free .t1) _)
  · exact ((readFromMemory_keepsTargets inst _ (by decide) (by decide)
      false).append (executes (by decide) _)).append
        (writeToMemory_keepsTargets inst _ _ (by decide) (by decide)
          (readFromMemory_free inst _ (by decide) (by decide) false))

namespace Rotation

attribute [local simp] addi add sub andi opImm srli slli srliw slliw srl sll srlw
  sllw shift shiftW Encoding.or in
theorem rotate_falls (operation : Rotation) (reg : Register) :
    FallsThrough (operation.rotate inst reg).1 := by
  cases operation <;> cases size : inst.destinationSize <;>
    simp [rotate, RolImm.rotate, RolCl.rotate, RorImm.rotate, RorCl.rotate,
      combine, clearUpper, opposite, size, Inst.directOffset]

theorem rotate_keepsTargets
    (operation : Rotation)
    {reg : Register}
    (free : Free reg) :
    KeepsTargets (operation.rotate inst reg).1 :=
  .of_spares (rotate_falls inst operation reg) fun _ _ =>
    rotate_spares inst operation free

theorem generate_keepsTargets (operation : Rotation) :
    KeepsTargets (operation.generate symbols inst) := by
  have rotates {reg : Register} (free : Free reg) :=
    rotate_keepsTargets inst operation free
  refine (KeepsTargets.append ?_ (updateCarryUnsupported_keepsTargets inst
    (by decide) (by decide) _)).append
      (updateOverflowUnsupported_keepsTargets inst (by decide) (by decide) _)
  cases operand : inst.getOperand 0 with
  | mem size base =>
      exact ((readFromMemory_keepsTargets inst _ (by decide) (by decide)
        _).append (rotates (by decide))).append
          (writeToMemory_keepsTargets inst _ _ (by decide) (by decide)
            (readFromMemory_free inst _ (by decide) (by decide) false))
  | reg size number type =>
      have moves (src : Register) (access : RegisterAccess) (cleared : Bool) :=
        moveToRegister_keepsTargets (free_mapRegType number type) src access
          (by decide : Free .t6) cleared
      cases type with
      | gph =>
          exact (keepsTargets_compute rfl rfl (by decide : Free .t0)).append
            ((rotates (by decide)).append (moves _ _ _))
      | gpl => exact (rotates (free_mapReg number)).append (moves _ _ _)
  | _ => exact KeepsTargets.nil

end Rotation

/-! ## Bit tests -/

theorem readBitBase_keepsTargets
    {temp : Register}
    (free : Free temp) :
    KeepsTargets (readBitBase inst temp).1 := by
  unfold readBitBase
  split
  · exact KeepsTargets.nil
  · exact readFromMemory_keepsTargets inst _ (by decide) free _

theorem Bt.generate_keepsTargets : KeepsTargets (Bt.generate inst) := by
  refine ((readBitBase_keepsTargets inst (by decide)).append ?_).append
    (storeBit_keepsTargets (by decide) (by decide) rfl fun pc state =>
      ⟨(state.get .t1).getLsbD 0, ?_⟩)
  · split
    · exact keepsTargets_compute rfl rfl (by decide : Free .t1)
    · exact KeepsTargets.nil
  · rw [apply_andi, and_one]

namespace BitTest

theorem testBit_keepsTargets (base : Register) :
    KeepsTargets ([Encoding.and bitValueReg base maskReg,
      snez bitValueReg bitValueReg] ++ storeBit bitValueReg) :=
  (keepsTargets_compute rfl rfl (by decide : Free .t1)).append
    (storeBit_keepsTargets (by decide) (by decide) rfl fun pc state =>
      ⟨state.get .t1 != 0, apply_snez _ _ _ _⟩)

theorem generate_keepsTargets (operation : BitTest) :
    KeepsTargets (operation.generate inst) := by
  have base := bitBaseRegister_free (inst.getOperand 0)
  have read := readBitBase_keepsTargets inst (by decide : Free .t3)
  have mask := KeepsTargets.of_computesInto (loadMask_computesInto inst)
    (by simp)
  have manipulates := KeepsTargets.of_computesInto
    (manipulateBit_computesInto operation
      (bitBaseRegister (inst.getOperand 0))) (by simp [base])
  have address : Free (readBitBase inst .t3).2 := by
    unfold readBitBase
    split
    · decide
    · exact readFromMemory_free inst _ (by decide) (by decide) _
  unfold generate
  simp only
  rw [List.append_assoc (_ ++ loadMask inst)]
  refine (((read.append mask).append (testBit_keepsTargets _)).append
    manipulates).append ?_
  split
  · exact writeToMemory_keepsTargets inst _ _ (by decide) (by decide) address
  · exact KeepsTargets.nil

end BitTest

/-! ## Comparisons of strings -/

namespace RepeatableFlag

theorem updateFlags_keepsTargets : KeepsTargets (updateFlags inst) :=
  ((((updateZero_keepsTargets inst _ _).append
    (updateSign_keepsTargets inst _ _ (by decide) (by decide))).append
      (updateParity_keepsTargets inst _)).append
        (updateCarry_keepsTargets inst (by decide) (by decide)
          (by exact trivial) (by simp) _ _)).append
            (updateOverflow_keepsTargets inst (by decide) (by decide)
              (by exact trivial) (by simp) _ _)

section Repetitions

variable {field : Field} (operation : RepeatableFlag)

theorem execute_spares (size : OperandSize) :
    SparesField field (operation.execute size) := by
  have load {dest : Register} (free : Free dest) (address : Register) :=
    @loadOperand_spares field size false dest free address 0
  have advances {pointer : Register} (free : Free pointer) :
      (advance pointer size).spares field.region = true :=
    (spares_of_target rfl).mpr free
  have source := advances (by decide : Free rsi)
  have destination := advances (by decide : Free rdi)
  have difference : (sub diffReg dstReg srcReg).spares field.region = true :=
    (spares_of_target rfl).mpr (by decide : Free .t0)
  cases operation with
  | cmps =>
      simp only [execute, cmpsOperation, Spares.cons_iff]
      exact ⟨load (by decide) _, load (by decide) _, difference, source,
        destination, Spares.nil⟩
  | scas =>
      simp only [execute, scasOperation, Spares.cons_iff]
      exact ⟨load (by decide) _, difference, destination, Spares.nil⟩

theorem execute_falls (size : OperandSize) :
    FallsThrough (operation.execute size) :=
  .of_straight (execute_straight operation size).1

/-- Comparisons are repeated or made once. -/
theorem generateFlag_cases
    {operation code : List Inst}
    (generated : generateFlag inst operation = some code) :
    (prefixed inst = true ∧ ∃ z, code = generateLoop inst operation z) ∨
      prefixed inst = false ∧ code = operation ++ updateFlags inst := by
  unfold generateFlag at generated
  unfold prefixed
  split at generated
  · cases generated
  split at generated
  · rename_i hasRep
    exact Or.inl ⟨by rw [hasRep, Bool.true_or],
      true, (Option.some.inj generated).symm⟩
  split at generated
  · rename_i hasRepnz
    exact Or.inl ⟨by rw [hasRepnz, Bool.or_true],
      false, (Option.some.inj generated).symm⟩
  · rename_i noRep noRepnz
    rw [Bool.not_eq_true] at noRep noRepnz
    exact Or.inr ⟨by rw [noRep, noRepnz, Bool.or_false],
      (Option.some.inj generated).symm⟩

/-- A load and the loop of the comparisons. -/
def comparing (load : List Inst) (z : Bool) : List Inst :=
  let repetition := loop (operation.execute inst.operandSize)
    (if z then bnqz else beqz)
  load ++ beqz rcx (BitVec.ofNat 32
    (4 * (1 + (repetition ++ updateFlags inst).length))) :: repetition

theorem comparing_updateFlags (load : List Inst) (z : Bool) :
    load ++ generateLoop inst (operation.execute inst.operandSize) z =
      comparing inst operation load z ++ updateFlags inst := by
  rw [comparing, List.append_assoc]
  rfl

theorem comparing_spares
    {load : List Inst}
    (loads : SparesField field load)
    (z : Bool) :
    SparesField field (comparing inst operation load z) := by
  have operates := @execute_spares field operation inst.operandSize
  have counts : (addi rcx rcx (-1)).spares field.region = true :=
    (spares_of_target rfl).mpr (by decide)
  refine Spares.append_iff.mpr ⟨loads, Spares.cons_iff.mpr ⟨rfl, ?_⟩⟩
  refine Spares.append_iff.mpr ⟨Spares.cons_iff.mpr ⟨counts, operates⟩, ?_⟩
  refine Spares.cons_iff.mpr ⟨?_, Spares.cons_iff.mpr ⟨rfl, Spares.nil⟩⟩
  cases z <;> rfl

/-- The branches of the loop lead into it or to its end. -/
theorem loop_jumpsWithin (z : Bool) (index : Nat) :
    jumpsWithin (index + (loop (operation.execute inst.operandSize)
        (if z then bnqz else beqz)).length) index
      (loop (operation.execute inst.operandSize)
        (if z then bnqz else beqz)) := by
  obtain ⟨-, short⟩ := execute_straight operation inst.operandSize
  let body := addi rcx rcx (-1) :: operation.execute inst.operandSize
  let leave : Inst := (if z then bnqz else beqz) diffReg 8
  have bodyFalls : FallsThrough body :=
    FallsThrough.cons_iff.mpr ⟨rfl, execute_falls operation _⟩
  have bodyLength : body.length =
      (operation.execute inst.operandSize).length + 1 := rfl
  let loops := body ++ [leave, branchBack (bnqz rcx) (body ++ [leave])]
  have loopsLength : loops.length = body.length + 2 := List.length_append
  have again := @branchBack_reach (body ++ [leave]).length (by
    rw [List.length_append, List.length_singleton]
    omega)
  have leaves : leave.directOffset = some 4 := by
    cases z <;> rfl
  change jumpsWithin (index + loops.length) index loops
  rw [jumpsWithin_append]
  refine ⟨bodyFalls.jumpsWithin, ?_⟩
  refine jumpsWithin_jump leaves ?_ (Nat.le_refl _) ?_
  · rw [loopsLength]
    push_cast
    ring
  refine jumpsWithin_jump rfl ?_ (Nat.le_add_right index _) trivial
  · rw [again, List.length_append, List.length_singleton]
    push_cast
    ring

/-- The branches lead into the code or behind the updates. -/
theorem comparing_avoids
    {load : List Inst}
    (falls : FallsThrough load)
    (z : Bool) :
    avoids (comparing inst operation load z).length (updateFlags inst).length 0
      (comparing inst operation load z) = true := by
  obtain ⟨-, short⟩ := execute_straight operation inst.operandSize
  have updates := @updateFlags_length inst
  have within (index : Nat) := loop_jumpsWithin inst operation z index
  have loopLength : (loop (operation.execute inst.operandSize)
      (if z then bnqz else beqz)).length =
        (operation.execute inst.operandSize).length + 3 := by
    simp [loop]
  rw [comparing]
  generalize loop (operation.execute inst.operandSize)
    (if z then bnqz else beqz) = loops at within loopLength ⊢
  have codeLength (skip : Inst) : (load ++ skip :: loops).length =
      load.length + (loops.length + 1) := List.length_append
  have skips := @branchOver_reach (loops ++ updateFlags inst).length (by
    rw [List.length_append]
    omega)
  rw [codeLength, avoids_append, falls.avoids, Bool.true_and]
  have behind : load.length + (loops.length + 1) + (updateFlags inst).length ≤
      load.length + (loops.length + 1) ∨ load.length + (loops.length + 1) +
        (updateFlags inst).length ≤ _ := Or.inr (Nat.le_refl _)
  refine avoids_jump rfl ?_ behind (avoids_of_jumpsWithin (within _) ?_)
  · rw [skips, List.length_append]
    push_cast
    ring
  · omega

/-- Behind a load of what is compared. -/
theorem generateFlag_staysTargeted
    {load code : List Inst}
    (falls : FallsThrough load)
    (loads : SparesTargets load)
    (generated : generateFlag inst (operation.execute inst.operandSize) =
      some code) :
    StaysTargeted (load ++ code) := by
  rcases generateFlag_cases inst generated with ⟨-, z, rfl⟩ | ⟨-, rfl⟩
  · rw [comparing_updateFlags]
    exact StaysTargeted.of_append
      (fun field isTarget => comparing_spares inst operation
        (loads field isTarget) z)
      (comparing_avoids inst operation falls z)
      (updateFlags_keepsTargets inst)
  · have once : KeepsTargets (operation.execute inst.operandSize) :=
      .of_spares (execute_falls operation _) fun _ _ =>
        execute_spares operation _
    exact ((KeepsTargets.of_spares falls loads).append
      (once.append (updateFlags_keepsTargets inst))).staysTargeted

theorem generate_staysTargeted
    {code : List Inst}
    (generated : operation.generate inst = some code) :
    StaysTargeted code := by
  cases operation with
  | cmps =>
      exact @generateFlag_staysTargeted inst .cmps [] code FallsThrough.nil
        (fun _ _ => Spares.nil) generated
  | scas =>
      obtain ⟨flagCode, found, rfl⟩ := Option.map_eq_some_iff.mp generated
      have computes := loadAccumulator_computesInto inst
      exact generateFlag_staysTargeted inst .scas
        (.of_straight computes.straight)
        (fun _ _ => SparesField.computes computes (by decide)) found

end Repetitions

end RepeatableFlag

/-! ## Other instructions -/

theorem Idiv.raise_spares {field : Field} :
    SparesField field (raise symbols) :=
  Spares.append_iff.mpr
    ⟨loadImmediate_spares _ (by decide), jumpTableEntry_spares _⟩

theorem Idiv.generate_spares {field : Field} :
    SparesField field (generate symbols inst) := by
  have raises := @raise_spares symbols field
  have divides (signed : Bool) : SparesField field (divide signed) := by
    cases signed <;> simp [divide, quotient, remainder, div, divu, rem, remu]
  have checks : SparesField field
      (if inst.type == .idiv then checkOverflow symbols inst.destinationSize
        else []) := by
    split
    · exact Spares.append_iff.mpr ⟨loadImmediate_spares _ (by decide),
        branchOver_spares (fun _ => rfl) (Spares.append_iff.mpr
          ⟨loadImmediate_spares _ (by decide),
            branchOver_spares (fun _ => rfl) raises⟩)⟩
    · exact Spares.nil
  simp only [generate, Spares.append_iff]
  refine ⟨⟨⟨⟨⟨?_, ?_⟩, ?_⟩, checks⟩, divides _⟩, ?_⟩
  · exact translateOperand_spares inst _ (by decide) (by decide) _ _ _ _
  · exact branchOver_spares (fun _ => rfl) raises
  · exact SparesField.computes (buildDividend_computesInto _ _)
      (by simp [dividend, tmp])
  · exact SparesField.computes (storeResult_computesInto _) (by decide)

theorem Syscall.generate_spares {field : Field} :
    SparesField field (Syscall.generate inst) :=
  Spares.append_iff.mpr ⟨jumpTableEntry_spares _, appendEob_spares _⟩

theorem UnsupportedInstruction.generate_spares {field : Field} :
    SparesField field (UnsupportedInstruction.generate inst) :=
  Spares.append_iff.mpr
    ⟨loadImmediate_spares _ (by decide), jumpTableEntry_spares _⟩

/-- Every instruction leaves the flags where they should be evaluated. -/
theorem Instruction.generate_staysTargeted
    (entries : Nat)
    {code : List Inst}
    (generated : inst.generate symbols entries = some code) :
    StaysTargeted code := by
  have spares {generates : List Inst}
      (here : ∀ field : Field, SparesField field generates) :
      StaysTargeted generates :=
    StaysTargeted.of_spares fun field _ => here field
  -- The classes that declare no update leave all fields as they are.
  have others (none : inst.instructionClass.declaredUpdate = Flags.none)
      (notNot : inst.instructionClass ≠ .unaryOperation .not) :
      StaysTargeted code :=
    spares fun field => inst.generate_spares symbols entries generated
      (by rw [none]; exact Flags.not_mem_none) (absurd · notNot)
  have found := generated
  unfold generate at found
  cases kind : inst.instructionClass <;>
    simp only [kind, Option.some.injEq] at found
  case binaryOperation operation =>
    exact found ▸ (operation.generate_keepsTargets symbols inst).staysTargeted
  case unaryOperation operation =>
    exact found ▸ (operation.generate_keepsTargets inst).staysTargeted
  case comparable operation =>
    exact found ▸ (operation.generate_keepsTargets inst).staysTargeted
  case mul => exact found ▸ (Mul.generate_keepsTargets symbols inst).staysTargeted
  case idiv => exact found ▸ spares fun _ => Idiv.generate_spares symbols inst
  case shiftCl operation =>
    exact found ▸
      (ShiftCl.generate_keepsTargets symbols inst operation).staysTargeted
  case rotation operation =>
    exact found ▸
      (Rotation.generate_keepsTargets symbols inst operation).staysTargeted
  case bt => exact found ▸ (Bt.generate_keepsTargets inst).staysTargeted
  case bitTest operation =>
    exact found ▸ (BitTest.generate_keepsTargets inst operation).staysTargeted
  case clc | stc =>
    exact found ▸ (setCarry_keepsTargets inst (by decide) (by decide)
      _).staysTargeted
  case repeatableFlag operation =>
    exact RepeatableFlag.generate_staysTargeted inst operation found
  case syscall => exact found ▸ spares fun _ => Syscall.generate_spares inst
  case unsupported =>
    exact found ▸ spares fun _ => UnsupportedInstruction.generate_spares inst
  all_goals exact others (by rw [kind]; rfl) (by rw [kind]; simp)

end Classes

/-! ## Evaluation of the flags -/

/-- The evaluation leaves a flag in `t4` and keeps everything but the scratch
registers, or it ends in the routine for flags that are not supported. -/
def EvaluatesOrFaults
    (runtime : Runtime)
    (env : Environment)
    (code : List Inst)
    (unsupported : JumpTable.Entry)
    (state : State) : Prop :=
  (∃ flag, Evaluates (JumpTable.dispatch runtime env) code state flag) ∨
    ∃ called : State, called.mem = state.mem ∧
      (∀ register, register ∉ [.t4, .ra] ->
        called.get register = state.get register) ∧
      (JumpTable.dispatch runtime env).Exits code state
        (.left (state.get jumpTableAddress + unsupported.offset.setWidth 64)
          called)

/-- The stored operations are entries for the carry and the overflow flag in the
table, and the flags are evaluated by them. -/
structure WellDispatched (runtime : Runtime) (state : State) : Prop where
  carry : ∃ entry : JumpTable.Entry, entry.IsCarry ∧
    (fields state .carryOperation).toNat = 4 * entry.number.toNat
  overflow : ∃ entry : JumpTable.Entry, entry.IsOverflow ∧
    (fields state .overflowOperation).toNat = 4 * entry.number.toNat
  signSize : (fields state .signSize).toNat ∈ [0, 7, 15, 31, 63]
  evaluatesCarry : ∀ env : Environment, env.PermitsEverything ->
    EvaluatesOrFaults runtime env Instruction.evaluateCarry .unsupportedCarry
      state
  evaluatesOverflow : ∀ env : Environment, env.PermitsEverything ->
    EvaluatesOrFaults runtime env Instruction.evaluateOverflow
      .unsupportedOverflow state

section Dispatch

variable {runtime : Runtime} {env : Environment} {state : State}

/-- The routine for flags that are not supported does not come back. -/
theorem faults_of_unsupported
    {entry : JumpTable.Entry}
    {offset : BitVec 16}
    (permits : env.PermitsEverything)
    (aligned : TableAligned state)
    (operation : state.mem.load
      (state.get .s11 + (offset.setWidth 12).signExtend 64) 2 =
        entry.offset.setWidth 64)
    (ends : ∀ called : State,
      called.get jumpTableAddress = state.get jumpTableAddress ->
        JumpTable.call runtime (state.get jumpTableAddress +
          entry.offset.setWidth 64) called = none) :
    EvaluatesOrFaults runtime env (lhu .t4 contextAddress offset ::
      JumpTable.jumpTableOffset .t4) entry state := by
  obtain ⟨called, mem, kept, -, runs⟩ :=
    @run_tableOffset runtime env entry state offset permits aligned operation
  refine Or.inr ⟨called, mem, kept, 3, ?_⟩
  rw [runs, ends called (kept _ (by decide))]

theorem WellTargeted.wellDispatched
    (keeps : KeepsLazy runtime)
    (targeted : WellTargeted state) :
    WellDispatched runtime state := by
  obtain ⟨aligned, ⟨carry, isCarry, lowCarry, carryStored⟩,
    ⟨overflow, isOverflow, lowOverflow, overflowStored⟩, signSize⟩ := targeted
  have offset {entry : JumpTable.Entry} :
      (entry.offset.setWidth 64).toNat = 4 * entry.number.toNat := by
    rw [BitVec.toNat_setWidth_of_le (by decide), entry.offset_toNat]
  have unsupported {entry : JumpTable.Entry} {routine : JumpTable.Routine}
      (destination : entry.destination = .routine routine)
      (ends : ∀ called, runtime routine called = none) (called : State)
      (table : called.get jumpTableAddress = state.get jumpTableAddress) :
      JumpTable.call runtime (state.get jumpTableAddress +
        entry.offset.setWidth 64) called = none := by
    rw [← table, JumpTable.call_entry, destination]
    exact ends called
  refine ⟨⟨carry, isCarry, carryStored ▸ offset⟩,
    ⟨overflow, isOverflow, overflowStored ▸ offset⟩, signSize,
    fun env permits => ?_, fun env permits => ?_⟩
  · rcases isCarry.cases (carryValue state 0) (carryValue state 1) with
      ⟨flag, found⟩ | rfl | rfl
    · exact Or.inl ⟨flag, evaluateCarry_entry permits aligned carryStored found⟩
    · exact faults_of_unsupported permits aligned carryStored
        (unsupported rfl keeps.unsupportedCarry)
    · exact absurd rfl lowCarry
  · rcases isOverflow.cases (overflowValue state 0) (overflowValue state 1) with
      ⟨flag, found⟩ | rfl | rfl
    · exact Or.inl ⟨flag,
        evaluateOverflow_entry permits aligned overflowStored found⟩
    · exact faults_of_unsupported permits aligned overflowStored
        (unsupported rfl keeps.unsupportedOverflow)
    · exact absurd rfl lowOverflow

end Dispatch

/-! ## Reached states -/

/-- The states that a program reaches: what the constructor of the dispatcher
makes, all states in the code of instructions with any update sets, and states
that other code leads to that leaves the fields as they are. -/
inductive Reached (symbols : Instruction.HostSymbols) (runtime : Runtime) :
    State -> Prop
  | init
      {state : State}
      (aligned : TableAligned state)
      (carry : fields state .carryOperation =
        JumpTable.Entry.carryClear.offset.setWidth 64)
      (overflow : fields state .overflowOperation =
        JumpTable.Entry.overflowClear.offset.setWidth 64)
      (signSize : fields state .signSize = 0) :
      Reached symbols runtime state
  | instruction
      {state after : State}
      (reached : Reached symbols runtime state)
      (inst : Instruction)
      (entries : Nat)
      {code : List Inst}
      (generated : inst.generate symbols entries = some code)
      {env : Environment}
      (outside : env.StoresOutside contextRegion code)
      {steps : Nat}
      (runs : ((JumpTable.dispatch runtime env).run code steps 0 state).state? =
        some after) :
      Reached symbols runtime after
  | other
      {state after : State}
      (reached : Reached symbols runtime state)
      (same : ∀ field : Field, field.region.Same state after) :
      Reached symbols runtime after

section Reached

variable {symbols : Instruction.HostSymbols} {runtime : Runtime}
variable {state : State}

theorem Reached.wellTargeted
    (keeps : KeepsLazy runtime)
    (reached : Reached symbols runtime state) :
    WellTargeted state := by
  induction reached with
  | init aligned carry overflow signSize =>
      refine ⟨aligned, ⟨.carryClear, trivial, by decide, carry⟩,
        ⟨.overflowClear, trivial, by decide, overflow⟩, ?_⟩
      rw [signSize]
      decide
  | instruction reached inst entries generated outside runs targeted =>
      exact inst.generate_staysTargeted symbols entries generated runtime _ _ _ _
        keeps outside targeted runs
  | other reached same targeted =>
      exact targeted.of_same fun field _ => same field

/-- In every reached state the flags are evaluated where they should be. -/
theorem reached_wellDispatched
    (keeps : KeepsLazy runtime)
    (reached : Reached symbols runtime state) :
    WellDispatched runtime state :=
  (reached.wellTargeted keeps).wellDispatched keeps

/-- The context as the constructor of the dispatcher makes it. -/
def initialState : State where
  regs
    | .s10 => 0x2000
    | .s11 => 0x1000
    | .a1 => 5
    | _ => 3
  mem address :=
    if address = 0x1240 then
      JumpTable.Entry.overflowClear.offset.setWidth 8
    else if address = 0x1242 then
      JumpTable.Entry.carryClear.offset.setWidth 8
    else
      0

/-- `stc` -/
def stcInst : Instruction :=
  InstructionClass.stc.construct { type := .stc, operands := [] }

/-- `adc rcx, rdx` -/
def adcRcxRdx : Instruction := highestLimb.inst

/-- Some steps in the code of an instruction, for a runtime whose routines do
not come back. -/
def runInstruction (inst : Instruction) (state : State) : Option State :=
  (inst.generate Instruction.sampleSymbols 0).bind fun code =>
    ((JumpTable.dispatch (fun _ _ => none) Stub.environment).run code 30 0
      state).state?

theorem Reached.runInstruction
    {inst : Instruction}
    {after : State}
    (reached : Reached Instruction.sampleSymbols (fun _ _ => none) state)
    (stores : ∀ code ∈ inst.generate Instruction.sampleSymbols 0,
      ∀ written ∈ code,
        written.base = none ∨ written.base = some contextAddress)
    (runs : runInstruction inst state = some after) :
    Reached Instruction.sampleSymbols (fun _ _ => none) after := by
  obtain ⟨code, generated, ends⟩ := Option.bind_eq_some_iff.mp runs
  refine reached.instruction inst 0 generated ?_ ends
  intro kind rs1 rs2 imm between member notBase
  rcases stores code generated _ member with none | base
  · cases none
  · exact absurd (Option.some.inj base) notBase

/-- `ADC` computes the entry that it stores from the carry that `STC` has set. -/
theorem reached_wellDispatched_adc :
    ∃ carried after, runInstruction stcInst initialState = some carried ∧
      runInstruction adcRcxRdx carried = some after ∧
      fields after .carryOperation =
        (JumpTable.Entry.carryAdc .double).offset.setWidth 64 ∧
      WellDispatched (fun _ _ => none) after := by
  have reachedEntry :
      ((runInstruction stcInst initialState).bind
        (runInstruction adcRcxRdx)).map (fields · .carryOperation) =
          some ((JumpTable.Entry.carryAdc .double).offset.setWidth 64) := by
    decide +kernel
  obtain ⟨after, ran, stored⟩ := Option.map_eq_some_iff.mp reachedEntry
  obtain ⟨carried, first, second⟩ := Option.bind_eq_some_iff.mp ran
  refine ⟨carried, after, first, second, stored, ?_⟩
  have start : Reached Instruction.sampleSymbols (fun _ _ => none)
      initialState :=
    .init (by decide) (by decide +kernel) (by decide +kernel)
      (by decide +kernel)
  exact reached_wellDispatched
    ⟨runtimeKeeps_of_never, fun _ => rfl, fun _ => rfl⟩
    ((start.runInstruction (by decide +kernel) first).runInstruction
      (by decide +kernel) second)

end Reached

end Oxtra

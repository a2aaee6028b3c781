import Oxtra.CodeGenerator.FlagElimination
import Oxtra.Instructions.DirectLoads
import Oxtra.Instructions.Sparing

/-!
# Flags that a block leaves alone

The code of an instruction leaves the flags alone that its class does not
declare, with the update set that the instruction gets in its block.  A `NOT`
in front of a stored block is an exception: its set is what the prediction
finds at this block.
-/

namespace Oxtra

open RiscV
open Encoding
open Helper
open FlagInfo
open Fadec (Operand OperandSize)

/-! ## Undisturbed flags -/

/-- Nothing but the code itself stores to the lazy information: neither the
routines of the runtime nor the stores to the memory of the guest. -/
structure KeepsLazyFlags
    (runtime : JumpTable.Runtime)
    (env : Environment)
    (code : List Inst) : Prop where
  calls : ∀ field, JumpTable.RuntimeKeeps runtime field
  stores : ∀ field : Field, env.StoresOutside field.region code

/-- A run of some code performs no store to the fields of a flag, and the flag
has the same value when the run ends. -/
structure LeavesFlag
    (env : Environment)
    (code : List Inst)
    (state : State)
    (flag : Flag) : Prop where
  stores : ∀ steps, ∀ visit ∈ env.trace code steps 0 state,
    env.permits visit.1 visit.2 = true ->
      ∀ field : Field, field.flag = flag ->
        ¬ visit.1.StoresInto field.region visit.2
  value : ∀ exit after, env.Exits code state exit ->
    exit.state? = some after ->
      ∀ value, EvaluatedFlag (fields after) flag value ↔
        EvaluatedFlag (fields state) flag value

/-- The value of a flag depends on its own fields. -/
theorem EvaluatedFlag.congr
    {first second : Field -> Word}
    {flag : Flag}
    (same : ∀ field : Field, field.flag = flag -> first field = second field)
    (value : Bool) :
    EvaluatedFlag first flag value ↔ EvaluatedFlag second flag value := by
  cases flag with
  | zero => rw [EvaluatedFlag, EvaluatedFlag, same .zeroValue rfl]
  | sign =>
      rw [EvaluatedFlag, EvaluatedFlag, same .signValue rfl,
        same .signSize rfl]
  | parity => rw [EvaluatedFlag, EvaluatedFlag, same .parityValue rfl]
  | carry =>
      rw [EvaluatedFlag, EvaluatedFlag, same .carryOperation rfl,
        same .carryFirst rfl, same .carrySecond rfl]
  | overflow =>
      rw [EvaluatedFlag, EvaluatedFlag, same .overflowOperation rfl,
        same .overflowFirst rfl, same .overflowSecond rfl]

/-- Code that spares the fields of a flag leaves the flag alone. -/
theorem leavesFlag_of_spares
    {runtime : JumpTable.Runtime}
    {env : Environment}
    {code : List Inst}
    {flag : Flag}
    (keeps : KeepsLazyFlags runtime env code)
    (spares : ∀ field : Field, field.flag = flag -> SparesField field code)
    (state : State) :
    LeavesFlag (JumpTable.dispatch runtime env) code state flag where
  stores steps visit member permitted field same :=
    have stays := JumpTable.dispatch_staysOutside (keeps.calls field)
      (keeps.stores field)
    not_storesInto_of_mem_trace field.region_wellPlaced stays.stores
      (spares field same) member permitted
  value exit after exits ends value := by
    apply EvaluatedFlag.congr
    intro field same
    have stays := JumpTable.dispatch_staysOutside (keeps.calls field)
      (keeps.stores field)
    exact field.read_eq_of_same
      (exits.same field.region_wellPlaced stays (spares field same) ends)

namespace Instruction

/-- The emitted code of an instruction leaves every flag alone that the class
of the instruction does not declare. -/
def LeavesUndeclared
    (symbols : HostSymbols)
    (entries : Nat)
    (inst : Instruction) : Prop :=
  ∀ code, inst.generate symbols entries = some code ->
    ∀ runtime env, KeepsLazyFlags runtime env code ->
      ∀ state flag, flag ∉ inst.instructionClass.declaredUpdate ->
        LeavesFlag (JumpTable.dispatch runtime env) code state flag

variable {symbols : HostSymbols} {entries : Nat} {inst : Instruction}

/-- An instruction leaves the undeclared flags alone, if it is not a `NOT` with
a flag of the result in its update set. -/
theorem leavesUndeclared_of_not
    (notUpdated : inst.instructionClass = .unaryOperation .not ->
      ∀ flag, flag ≠ .carry -> flag ≠ .overflow -> flag ∉ inst.updateFlags) :
    inst.LeavesUndeclared symbols entries := by
  intro code generated runtime env keeps state flag undeclared
  apply leavesFlag_of_spares keeps
  rintro field rfl
  exact inst.generate_spares symbols entries generated undeclared
    fun isNot => notUpdated isNot field.flag

/-! ## The exception -/

/-- A store to a field reaches it in every state. -/
theorem storesInto_field_region
    (kind : Store)
    (field : Field)
    (register : Register)
    (state : State) :
    (store kind contextAddress register field.offset).StoresInto field.region
      state := by
  have nonempty : 0 < field.bytes := by cases field <;> decide
  have width : 0 < kind.width.bytes := by cases kind <;> decide
  have same : field.region.pointer state 0 =
      effectiveAddress state contextAddress (field.offset.setWidth 12) := by
    rw [Region.pointer, effectiveAddress]
    congr 1
    cases field <;> decide
  refine ⟨0, nonempty, ?_⟩
  rw [same, BitVec.sub_self]
  exact width

/-- The updates of the flags of a result store to a field of every such flag
in the update set. -/
theorem exists_store_resultUpdates
    {flag : Flag}
    (member : flag ∈ inst.updateFlags)
    (notCarry : flag ≠ .carry)
    (notOverflow : flag ≠ .overflow)
    (va : Register)
    (size : OperandSize)
    (temp : Register) :
    ∃ kind field register, Field.flag field = flag ∧
      store kind contextAddress register field.offset ∈
        inst.resultUpdates va size temp := by
  cases flag with
  | carry => exact absurd rfl notCarry
  | overflow => exact absurd rfl notOverflow
  | zero =>
      refine ⟨.sd, .zeroValue, if size = .qword then va else .zero, rfl, ?_⟩
      apply List.mem_append_left
      apply List.mem_append_left
      unfold updateZero
      rw [updating, if_pos member]
      cases size <;> exact List.mem_cons_self
  | sign =>
      refine ⟨.sd, .signValue, va, rfl, ?_⟩
      apply List.mem_append_left
      apply List.mem_append_right
      rw [updateSign, updating, if_pos member]
      exact List.mem_cons_self
  | parity =>
      refine ⟨.sb, .parityValue, va, rfl, ?_⟩
      apply List.mem_append_right
      rw [updateParity, updating, if_pos member]
      exact List.mem_cons_self

/-- An environment in which the guest can not write its memory. -/
def readOnly : Environment where
  origin := 0
  aligned := zero_aligned
  call _ _ := none
  permits inst _ :=
    match inst with
    | .store _ rs1 _ _ => rs1 = contextAddress
    | _ => true

theorem readOnly_keeps (code : List Inst) :
    KeepsLazyFlags (fun _ _ => none) readOnly code where
  calls _ _ _ _ returns := by cases returns
  stores field kind rs1 rs2 imm state _ other permitted :=
    absurd (of_decide_eq_true permitted) other

theorem readOnly_permits
    {written : Inst}
    (through : written.base = none ∨ written.base = some contextAddress)
    (state : State) :
    readOnly.permits written state = true := by
  cases written
  case store kind rs1 rs2 imm =>
    rcases through with noBase | based
    · cases noBase
    · exact decide_eq_true (Option.some.inj based)
  all_goals rfl

/-- An operand is loaded by straight code without a store. -/
theorem translateOperand_readOnly
    (op : Operand)
    (tempA tempB : Register)
    (modifiable fullLoad signed sizeChange : Bool) :
    ∀ written ∈ (inst.translateOperand op tempA tempB modifiable fullLoad
        signed sizeChange).code,
      written.isStraight = true ∧
        ∀ state, readOnly.permits written state = true := by
  by_cases isMem : op.isMem = true
  · obtain ⟨size, base, rfl⟩ : ∃ size base, op = .mem size base := by
      cases op with
      | mem size base => exact ⟨size, base, rfl⟩
      | _ => cases isMem
    intro written member
    refine ⟨inst.readFromMemory_straight _ _ _ _ member, fun state => ?_⟩
    simp only [translateOperand, readFromMemory_eq] at member
    rcases List.mem_append.mp member with base | load
    · exact readOnly_permits (inst.readBase_base _ _ _ base).2 state
    · rw [List.mem_singleton, loadOperand_eq] at load
      rw [load]
      rfl
  · have notMem : op.isMem = false := by simpa using isMem
    have computes := inst.translateOperand_computesInto notMem tempA tempB
      modifiable fullLoad signed sizeChange
    intro written member
    exact ⟨computes.straight _ member, fun state =>
      readOnly_permits (Or.inl (computes.base_none _ member)) state⟩

/-- A `NOT` with a flag of the result in its update set does not leave this
flag alone. -/
theorem not_leavesUndeclared_of_not
    (isNot : inst.instructionClass = .unaryOperation .not)
    {flag : Flag}
    (member : flag ∈ inst.updateFlags)
    (notCarry : flag ≠ .carry)
    (notOverflow : flag ≠ .overflow) :
    ¬ inst.LeavesUndeclared symbols entries := by
  intro leaves
  let dest := inst.translateOperand (inst.getOperand 0) .t0 .t1 true false
    false true
  have generated : inst.generate symbols entries =
      some (UnaryOperation.generate inst .not) := by
    rw [Instruction.generate, isNot]
  have undeclared : flag ∉ inst.instructionClass.declaredUpdate := by
    rw [isNot]
    cases flag <;> decide
  let state : State := ⟨fun _ => 0, fun _ => 0⟩
  have alone := leaves _ generated _ _ (readOnly_keeps _) state flag
    undeclared
  obtain ⟨kind, field, register, same, inUpdates⟩ :=
    inst.exists_store_resultUpdates member notCarry notOverflow dest.value
      inst.destinationSize .t2
  obtain ⟨front, rest, updates⟩ := List.append_of_mem inUpdates
  have updating := inst.resultUpdates_updates dest.value inst.destinationSize
    .t2
  have code : UnaryOperation.generate inst .not =
      (dest.code ++ [Encoding.not dest.value dest.value] ++ front) ++
        store kind contextAddress register field.offset ::
          (rest ++ inst.translateDestination dest.value dest.address .t2
            .t3) := by
    have joined : UnaryOperation.generate inst .not =
        dest.code ++ [Encoding.not dest.value dest.value] ++
          inst.resultUpdates dest.value inst.destinationSize .t2 ++
          inst.translateDestination dest.value dest.address .t2 .t3 := by
      simp only [UnaryOperation.generate, UnaryOperation.execute,
        resultUpdates, List.append_assoc, dest]
    rw [joined, updates]
    simp
  have each : ∀ written ∈
      dest.code ++ [Encoding.not dest.value dest.value] ++ front,
      written.isStraight = true ∧
        ∀ state, readOnly.permits written state = true := by
    intro written inFront
    rcases List.mem_append.mp inFront with operand | update
    · rcases List.mem_append.mp operand with load | operation
      · exact translateOperand_readOnly _ _ _ _ _ _ _ _ load
      · rw [List.mem_singleton] at operation
        rw [operation]
        exact ⟨rfl, fun _ => rfl⟩
    · have inside : written ∈ inst.resultUpdates dest.value
          inst.destinationSize .t2 := by
        rw [updates]
        exact List.mem_append_left _ update
      exact ⟨updating.straight _ inside, fun state =>
        readOnly_permits (updating.base_eq _ inside) state⟩
  let env := JumpTable.dispatch (fun _ _ => none) readOnly
  have permits : ∀ written ∈
      dest.code ++ [Encoding.not dest.value dest.value] ++ front,
      ∀ state, env.permits written state = true :=
    fun written inFront => (each written inFront).2
  have visited := Environment.mem_trace_of_straight
    (fun written inFront => (each written inFront).1)
    (Environment.permitsAll_of_forall permits state)
    (store kind contextAddress register field.offset)
    (rest ++ inst.translateDestination dest.value dest.address .t2 .t3)
  rw [← code] at visited
  have permitted : readOnly.permits
      (store kind contextAddress register field.offset)
      (applyAll env.origin state
        (dest.code ++ [Encoding.not dest.value dest.value] ++ front)) =
        true :=
    readOnly_permits (Or.inr rfl) _
  exact alone.stores _ _ visited permitted field same
    (storesInto_field_region kind field register _)

end Instruction

/-! ## The instructions of a block -/

namespace CodeGenerator

section Blocks

variable {decoder : Fadec.Decoder} {elf : Elf} {depth : Nat}

/-- A block ends with a `NOT` and falls into a stored block, in front of which
the prediction finds a flag that a result has. -/
def FallsFromNot
    (decoder : Fadec.Decoder)
    (elf : Elf)
    (depth : Nat)
    (block : DecodedBlock) : Prop :=
  ∃ last flag, block.instructions.getLast? = some last ∧
    last.instructionClass = .unaryOperation .not ∧
    block.reachesNextBlock = true ∧ flag ≠ Flag.carry ∧
    flag ≠ Flag.overflow ∧
    flag ∈ recursiveFlagRequirements decoder elf depth allFlags block.addr

/-- An instruction in front of the last one is assigned declared flags. -/
theorem declares_of_mem_assignBackwards
    {front : List Instruction}
    (declares : ∀ inst ∈ front,
      inst.updateFlags = inst.instructionClass.declaredUpdate)
    {required : BitVec 64}
    {inst : Instruction}
    (member : inst ∈ (assignBackwards decoder elf depth required front).2)
    {flag : Flag}
    (updates : flag ∈ inst.updateFlags) :
    flag ∈ inst.instructionClass.declaredUpdate := by
  obtain ⟨before, rest, split⟩ := List.append_of_mem member
  rw [(assignBackwards_split declares split).2, Flags.mem_setWidth_byte,
    Flags.mem_and, Flags.mem_setWidth_size] at updates
  exact updates.1

/-- The last instruction is assigned what the prediction finds, if it is a
`NOT` in front of a stored block, and else nothing. -/
theorem mem_assignLast_not
    {block : DecodedBlock}
    {last : Instruction}
    (declares : last.updateFlags = last.instructionClass.declaredUpdate)
    (isNot : last.instructionClass = .unaryOperation .not)
    {flag : Flag} :
    flag ∈ (assignLast decoder elf depth block last).2.updateFlags ↔
      block.reachesNextBlock = true ∧
        flag ∈ recursiveFlagRequirements decoder elf depth allFlags
          block.addr := by
  have straight : last.controlFlowDimension = 0 := by
    rw [Instruction.controlFlowDimension, isNot]
    rfl
  have indirect := Instruction.branchAddress_of_dimension_zero straight
  simp only [assignLast, indirect, ne_eq, not_true_eq_false, if_false]
  cases reaches : block.reachesNextBlock
  · have undeclared : flag ∉ last.updateFlags := by
      rw [declares, isNot]
      cases flag <;> decide
    simpa using undeclared
  · simp

theorem assignLast_instructionClass
    (block : DecodedBlock)
    (last : Instruction) :
    (assignLast decoder elf depth block last).2.instructionClass =
      last.instructionClass := by
  unfold assignLast
  simp only
  split
  · rfl
  · split <;> rfl

/-- A `NOT` in a block is not assigned a flag of the result, unless the block
falls from it. -/
theorem not_mem_assignUpdates_not
    {addr : BitVec 64}
    {nextBlock : Option (BitVec 64)}
    {block : DecodedBlock}
    (describes : block.Describes decoder elf addr nextBlock)
    (notFalls : ¬ FallsFromNot decoder elf depth block) :
    ∀ inst ∈ assignUpdates decoder elf depth block,
      inst.instructionClass = .unaryOperation .not ->
        ∀ flag, flag ≠ .carry -> flag ≠ .overflow ->
          flag ∉ inst.updateFlags := by
  obtain ⟨front, last, split⟩ : ∃ front last,
      block.instructions = front ++ [last] :=
    ⟨_, _, (List.dropLast_append_getLast describes.nonempty).symm⟩
  have declares := describes.consecutive.declares
  rw [split] at declares
  have getLast : block.instructions.getLast? = some last := by simp [split]
  intro inst member isNot flag notCarry notOverflow updates
  rw [assignUpdates_eq split] at member
  rcases List.mem_append.mp member with inFront | atEnd
  · have undeclared : flag ∉ inst.instructionClass.declaredUpdate := by
      rw [isNot]
      cases flag <;> decide
    exact undeclared (declares_of_mem_assignBackwards
      (fun other inside => declares other (List.mem_append_left _ inside))
      inFront updates)
  · rw [List.mem_singleton] at atEnd
    rw [atEnd, assignLast_instructionClass] at isNot
    rw [atEnd, mem_assignLast_not (declares last (by simp)) isNot] at updates
    exact notFalls ⟨last, flag, getLast, isNot, updates.1, notCarry,
      notOverflow, updates.2⟩

/-- The instructions of a block leave the undeclared flags alone, unless the
block falls from a `NOT`. -/
theorem assignUpdates_leavesUndeclared_iff
    {addr : BitVec 64}
    {nextBlock : Option (BitVec 64)}
    {block : DecodedBlock}
    (describes : block.Describes decoder elf addr nextBlock)
    (symbols : Instruction.HostSymbols)
    (entries : Nat) :
    (∀ inst ∈ assignUpdates decoder elf depth block,
        inst.LeavesUndeclared symbols entries) ↔
      ¬ FallsFromNot decoder elf depth block := by
  obtain ⟨front, last, split⟩ : ∃ front last,
      block.instructions = front ++ [last] :=
    ⟨_, _, (List.dropLast_append_getLast describes.nonempty).symm⟩
  have declares := describes.consecutive.declares
  rw [split] at declares
  have lastDeclares := declares last (by simp)
  have assigned := @assignUpdates_eq decoder elf depth block front last split
  have getLast : block.instructions.getLast? = some last := by simp [split]
  constructor
  · rintro leaves ⟨other, flag, isLast, isNot, reaches, notCarry, notOverflow,
      required⟩
    obtain rfl := Option.some.inj (getLast.symm.trans isLast)
    have member := (mem_assignLast_not lastDeclares isNot).mpr
      ⟨reaches, required⟩
    apply Instruction.not_leavesUndeclared_of_not _ member notCarry notOverflow
      (leaves _ (by simp [assigned]))
    rw [assignLast_instructionClass, isNot]
  · intro notFalls inst member
    exact Instruction.leavesUndeclared_of_not
      (not_mem_assignUpdates_not describes notFalls inst member)

/-- What `translate` builds is a described block with its assigned sets. -/
theorem buildInstructions_describes
    {store : CodeStore}
    {depth : BitVec 8}
    {addr : BitVec 64}
    {block : DecodedBlock}
    {instructions : List Instruction}
    (built : buildInstructions decoder elf depth store addr =
      .ok (block, instructions)) :
    (∃ nextBlock, block.Describes decoder elf addr nextBlock) ∧
      instructions = assignUpdates decoder elf depth.toNat block := by
  unfold buildInstructions at built
  cases decoded : decodeBlock decoder elf
      ((store.getNextBlock elf addr).map fun index =>
        (store.block index).x86Start) (scanFuel elf) [] addr with
  | error fault => simp [decoded] at built
  | ok decodedBlock =>
      simp only [decoded] at built
      obtain ⟨rfl, rfl⟩ := Prod.mk.inj (Except.ok.inj built)
      exact ⟨⟨_, decodeBlock_nil_describes decoded⟩, rfl⟩

end Blocks

/-- Every instruction of a block that `translate` builds leaves the flags alone
that its class does not declare, with the update set it has been assigned,
exactly if the block does not fall from a `NOT` into a stored block that is
predicted to require a flag of the result. -/
theorem buildInstructions_leavesUndeclared_iff
    {decoder : Fadec.Decoder}
    {elf : Elf}
    {depth : BitVec 8}
    {store : CodeStore}
    {addr : BitVec 64}
    {block : DecodedBlock}
    {instructions : List Instruction}
    (built : buildInstructions decoder elf depth store addr =
      .ok (block, instructions))
    (symbols : Instruction.HostSymbols)
    (entries : Nat) :
    (∀ inst ∈ instructions, inst.LeavesUndeclared symbols entries) ↔
      ¬ FallsFromNot decoder elf depth.toNat block := by
  obtain ⟨⟨nextBlock, describes⟩, rfl⟩ := buildInstructions_describes built
  exact assignUpdates_leavesUndeclared_iff describes symbols entries

/-- The decoder of `not eax`, `setz al` and `ret`. -/
def notSampleDecoder : Fadec.Decoder :=
  .ofEncodings [.notEax, .setzAl, .ret]

/-- `not eax; setz al; ret` -/
def notSampleElf : Elf :=
  .ofBytes [0xf7, 0xd0, 0x0f, 0x94, 0xc0, 0xc3] 1 (by decide)

/-- A store with the block `setz al; ret`. -/
def notSampleStore : CodeStore where
  pages := [[0]]
  blocks := [
    { x86Start := 0x400002, x86End := 0x400006, riscvStart := 4,
      instructionCount := 2, offsets := 1 }]

/-- `not eax` -/
def notSampleBlock : DecodedBlock where
  instructions := [
    transformInstruction (Fadec.Encoding.notEax.decodedAt 0x400000)]
  addr := 0x400002
  reachesNextBlock := true

theorem buildInstructions_notSample :
    buildInstructions notSampleDecoder notSampleElf 1 notSampleStore 0x400000 =
      .ok (notSampleBlock,
        assignUpdates notSampleDecoder notSampleElf 1 notSampleBlock) := by
  have nextBlock : (notSampleStore.getNextBlock notSampleElf 0x400000).map
      (fun index => (notSampleStore.block index).x86Start) =
        some 0x400002 := by
    decide +kernel
  have decoded : decodeBlock notSampleDecoder notSampleElf (some 0x400002)
      (scanFuel notSampleElf) [] 0x400000 = .ok notSampleBlock := by
    decide +kernel
  simp only [buildInstructions, nextBlock, decoded]
  rfl

/-- A `NOT` in front of a stored `setz` changes the zero flag. -/
theorem buildInstructions_changes_undeclared :
    ∃ block instructions,
      buildInstructions notSampleDecoder notSampleElf 1 notSampleStore
          0x400000 = .ok (block, instructions) ∧
        ¬ ∀ inst ∈ instructions,
          inst.LeavesUndeclared Instruction.sampleSymbols 0 := by
  refine ⟨_, _, buildInstructions_notSample, ?_⟩
  obtain ⟨⟨nextBlock, describes⟩, -⟩ :=
    buildInstructions_describes buildInstructions_notSample
  rw [assignUpdates_leavesUndeclared_iff describes, not_not]
  exact ⟨_, .zero, rfl, by decide, rfl, by decide, by decide,
    by decide +kernel⟩

/-- The statement for this block. -/
theorem buildInstructions_leavesUndeclared_iff_notSample :
    (∀ inst ∈ assignUpdates notSampleDecoder notSampleElf 1 notSampleBlock,
        inst.LeavesUndeclared Instruction.sampleSymbols 0) ↔
      ¬ FallsFromNot notSampleDecoder notSampleElf (1 : BitVec 8).toNat
        notSampleBlock :=
  buildInstructions_leavesUndeclared_iff buildInstructions_notSample
    Instruction.sampleSymbols 0

end CodeGenerator
end Oxtra

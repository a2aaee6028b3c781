import Oxtra.CodeGenerator.Block

/-!
# Elimination of flag updates in a block

The update sets that a block's instructions get are compared with what the
guest code reads.  A set may leave out a flag only if no path from the
instruction reaches an instruction that requires the flag before another one
updates it.
-/

namespace Oxtra

/-! ## Where the control goes -/

/-- The control goes from an instruction, which `following` comes after, to
`successor`.  A conditional jump has an immediate target. -/
def Instruction.Successor
    (inst : Instruction)
    (following successor : BitVec 64) : Prop :=
  match inst.controlFlowDimension with
  | 0 => inst.endOfBlock = true ∨ successor = following
  | 1 => (inst.getOperand 0).isImm = true -> successor = inst.immediate
  | _ => successor = inst.immediate ∨ successor = following

/-- The flow of control and of the flags through guest code that is executed:
an instruction that does not decode is the end of every path. -/
def controlFlow (decoder : Fadec.Decoder) (elf : Elf) :
    FlowGraph (BitVec 64) Flag where
  next addr successor :=
    ∃ inst, instructionAt decoder elf addr = some inst ∧
      inst.Successor (inst.following addr) successor
  reads := (flagGraph decoder elf).reads
  writes := (flagGraph decoder elf).writes

section ControlFlow

variable {decoder : Fadec.Decoder} {elf : Elf}

/-- A direct branch goes to its immediate. -/
theorem Instruction.branchAddress_eq_immediate
    {inst : Instruction}
    (branches : inst.controlFlowDimension ≠ 0)
    (direct : (inst.getOperand 0).isImm = true) :
    inst.branchAddress = inst.immediate := by
  unfold Instruction.controlFlowDimension at branches
  unfold Instruction.branchAddress
  cases operand : inst.getOperand 0 <;> simp_all [Fadec.Operand.isImm]
  cases kind : inst.instructionClass <;>
    simp_all [InstructionClass.controlFlowDimension]

/-- The encodings of conditional jumps have one immediate operand. -/
theorem hasForm_of_conditional
    {type : Fadec.InstructionType}
    (conditional : type.instructionClass.controlFlowDimension = 2)
    (operands : List Fadec.Operand) :
    type.hasForm operands = Fadec.OperandForm.imm operands := by
  cases type <;> first | rfl | exact absurd conditional (by decide)

/-- The operand of a conditional jump is an immediate. -/
theorem instructionAt_conditional_isImm
    {addr : BitVec 64}
    {inst : Instruction}
    (fetched : instructionAt decoder elf addr = some inst)
    (conditional : inst.controlFlowDimension = 2) :
    (inst.getOperand 0).isImm = true := by
  obtain ⟨entry, decoded, rfl⟩ := instructionAt_eq_some fetched
  have formed := decoder.wellFormed decoded
  simp only [Fadec.Instruction.wellFormed, Bool.and_eq_true,
    hasForm_of_conditional conditional] at formed
  show (entry.operands.getD 0 .none).isImm = true
  have immediate := formed.1.1.1
  rcases operands : entry.operands with _ | ⟨first, _ | ⟨second, rest⟩⟩ <;>
    simp_all [Fadec.OperandForm.imm]

/-- Conditional jumps have immediate targets. -/
theorem instructionAt_conditional_direct
    {addr : BitVec 64}
    {inst : Instruction}
    (fetched : instructionAt decoder elf addr = some inst)
    (conditional : inst.controlFlowDimension = 2) :
    inst.branchAddress = inst.immediate :=
  Instruction.branchAddress_eq_immediate (by omega)
    (instructionAt_conditional_isImm fetched conditional)

/-- The declared dimension of an instruction in the image, and whether it may
end a block. -/
theorem instructionAt_dimension_cases
    {addr : BitVec 64}
    {inst : Instruction}
    (fetched : instructionAt decoder elf addr = some inst) :
    inst.controlFlowDimension = 0 ∨
      inst.controlFlowDimension = 1 ∧ inst.endOfBlock = true ∨
      inst.controlFlowDimension = 2 ∧ inst.endOfBlock = false := by
  obtain ⟨_, _, endOfBlock⟩ := instructionAt_declares fetched
  rw [endOfBlock]
  exact inst.instructionClass.controlFlowDimension_cases

/-- A branch updates no flag. -/
theorem instructionAt_updateFlags_of_branch
    {addr : BitVec 64}
    {inst : Instruction}
    (fetched : instructionAt decoder elf addr = some inst)
    (branches : inst.controlFlowDimension ≠ 0) :
    inst.updateFlags = Flags.none := by
  rw [(instructionAt_declares fetched).1]
  exact InstructionClass.declaredUpdate_of_branch branches

theorem Instruction.Successor.eq_following
    {inst : Instruction}
    {following successor : BitVec 64}
    (step : inst.Successor following successor)
    (straight : inst.controlFlowDimension = 0)
    (continues : inst.endOfBlock = false) :
    successor = following := by
  simpa [Instruction.Successor, straight, continues] using step

/-- Inside of a block the control may go to the following instruction. -/
theorem Instruction.successor_following
    {addr : BitVec 64}
    {inst : Instruction}
    (fetched : instructionAt decoder elf addr = some inst)
    (continues : inst.endOfBlock = false) :
    inst.Successor (inst.following addr) (inst.following addr) := by
  unfold Instruction.Successor
  rcases instructionAt_dimension_cases fetched with
    straight | ⟨_, ends⟩ | ⟨conditional, _⟩
  · simp [straight]
  · simp [continues] at ends
  · simp [conditional]

theorem Instruction.Successor.eq_branchAddress
    {inst : Instruction}
    {following successor : BitVec 64}
    (step : inst.Successor following successor)
    (unconditional : inst.controlFlowDimension = 1)
    (direct : inst.branchAddress ≠ 0) :
    successor = inst.branchAddress := by
  have immediate : (inst.getOperand 0).isImm = true := by
    by_contra notImm
    refine direct ?_
    unfold Instruction.branchAddress
    split <;> simp_all [Fadec.Operand.isImm]
  rw [inst.branchAddress_eq_immediate (by omega) immediate]
  simp only [Instruction.Successor, unconditional] at step
  exact step immediate

theorem Instruction.Successor.eq_or_eq_of_conditional
    {addr following successor : BitVec 64}
    {inst : Instruction}
    (step : inst.Successor following successor)
    (fetched : instructionAt decoder elf addr = some inst)
    (conditional : inst.controlFlowDimension = 2) :
    successor = inst.branchAddress ∨ successor = following := by
  rw [instructionAt_conditional_direct fetched conditional]
  simpa [Instruction.Successor, conditional] using step

/-- The look-ahead's graph has every step that the control may take. -/
theorem Instruction.Successor.mayContinueAt
    {inst : Instruction}
    {following successor : BitVec 64}
    (step : inst.Successor following successor)
    (conditional : inst.controlFlowDimension = 2 ->
      inst.branchAddress = inst.immediate) :
    inst.MayContinueAt following successor := by
  have dimensions : inst.controlFlowDimension = 0 ∨
      inst.controlFlowDimension = 1 ∨ inst.controlFlowDimension = 2 := by
    rcases inst.instructionClass.controlFlowDimension_cases with
      zero | ⟨one, _⟩ | ⟨two, _⟩
    · exact .inl zero
    · exact .inr (.inl one)
    · exact .inr (.inr two)
  rcases dimensions with zero | one | two
  · simp only [Instruction.Successor, zero] at step
    simpa only [Instruction.MayContinueAt, zero] using step
  · simp only [Instruction.Successor, one] at step
    simp only [Instruction.MayContinueAt, one]
    by_cases direct : (inst.getOperand 0).isImm = true
    · rw [inst.branchAddress_eq_immediate (by omega) direct]
      exact .inr (step direct)
    · refine .inl ?_
      unfold Instruction.branchAddress
      split <;> simp_all [Fadec.Operand.isImm]
  · simp only [Instruction.Successor, two] at step
    simp only [Instruction.MayContinueAt, two, conditional two]
    exact .inr step

/-- What is exposed on the paths that the control takes is exposed for the
look-ahead. -/
theorem exposed_flagGraph_of_controlFlow
    {flag : Flag}
    {addr : BitVec 64}
    (exposed : (controlFlow decoder elf).Exposed flag addr) :
    (flagGraph decoder elf).Exposed flag addr := by
  have next_imp : ∀ node successor,
      (controlFlow decoder elf).next node successor ->
      (flagGraph decoder elf).next node successor := by
    rintro node successor ⟨inst, fetched, step⟩ other otherFetched
    obtain rfl := Option.some.inj (fetched.symm.trans otherFetched)
    exact step.mayContinueAt (instructionAt_conditional_direct fetched)
  exact exposed.of_next_imp next_imp (fun _ _ reader => reader)
    (fun _ _ writer => writer)

/-- Nothing is exposed at the null address, which does not decode. -/
theorem not_exposed_zero {flag : Flag} :
    ¬(controlFlow decoder elf).Exposed flag 0 := by
  have undecodable (inst : Instruction) :
      instructionAt decoder elf 0 ≠ some inst :=
    fun fetched => elf.not_contains_zero (instructionAt_contains fetched)
  rw [FlowGraph.exposed_iff]
  rintro (⟨inst, fetched, _⟩ | ⟨_, successor, ⟨inst, fetched, _⟩, _⟩)
  · exact undecodable inst fetched
  · exact undecodable inst fetched

/-- At an instruction, a flag is exposed that it requires, or that it does not
update and that is exposed at a successor. -/
theorem exposed_at_instruction
    {addr : BitVec 64}
    {inst : Instruction}
    {flag : Flag}
    (fetched : instructionAt decoder elf addr = some inst)
    (exposed : (controlFlow decoder elf).Exposed flag addr) :
    flag ∈ inst.requireFlags ∨
      flag ∉ inst.updateFlags ∧
        ∃ successor, inst.Successor (inst.following addr) successor ∧
          (controlFlow decoder elf).Exposed flag successor := by
  rcases FlowGraph.exposed_iff.mp exposed with
    ⟨other, otherFetched, required⟩ |
      ⟨noWriter, successor, ⟨other, otherFetched, step⟩, rest⟩
  · obtain rfl := Option.some.inj (fetched.symm.trans otherFetched)
    exact .inl required
  · obtain rfl := Option.some.inj (fetched.symm.trans otherFetched)
    exact .inr ⟨fun updated => noWriter ⟨inst, fetched, updated⟩,
      successor, step, rest⟩

end ControlFlow

/-! ## The passes of `translate` -/

namespace CodeGenerator

section Passes

variable {decoder : Fadec.Decoder} {elf : Elf} {depth : Nat}

/-- The instruction makes the backward pass ask for the flag: it requires the
flag itself, or branches to where the flag may be required. -/
def Demands
    (decoder : Fadec.Decoder)
    (elf : Elf)
    (depth : Nat)
    (inst : Instruction)
    (flag : Flag) : Prop :=
  flag ∈ inst.requireFlags ∨
    inst.controlFlowDimension ≠ 0 ∧
      (inst.branchAddress = 0 ∨
        flag ∈ recursiveFlagRequirements decoder elf depth allFlags
          inst.branchAddress)

theorem mem_allFlags {flag : Flag} : flag ∈ allFlags := by
  simp [allFlags]

/-- What the backward pass asks for in front of an instruction. -/
theorem mem_requiredBefore
    {inst : Instruction}
    {required : BitVec 64}
    {flag : Flag}
    (branchUpdates : inst.controlFlowDimension ≠ 0 ->
      inst.updateFlags = Flags.none) :
    flag ∈ requiredBefore decoder elf depth inst required ↔
      Demands decoder elf depth inst flag ∨
        flag ∈ required ∧ flag ∉ inst.updateFlags := by
  unfold requiredBefore Demands
  by_cases straight : inst.controlFlowDimension = 0
  · simp [straight]
    tauto
  · by_cases indirect : inst.branchAddress = 0
    · simp [straight, indirect, mem_allFlags]
    · have noUpdate : inst.updateFlags.setWidth 64 = 0#64 := by
        rw [branchUpdates straight]
        rfl
      have mask : allFlags &&& ~~~0#64 = allFlags := by decide
      have notUpdated : flag ∉ inst.updateFlags := by
        rw [branchUpdates straight]
        exact Flags.not_mem_none
      simp only [ne_eq, straight, not_false_eq_true, if_true, indirect,
        noUpdate, mask, BitVec.zero_and, BitVec.xor_zero, Flags.mem_or,
        Flags.mem_setWidth_size, false_or, true_and, notUpdated, and_true]
      rw [or_comm (a := flag ∈ required), or_assoc, or_assoc,
        or_comm (a := flag ∈ required)]

theorem Consecutive.branchUpdates
    {addr stop : BitVec 64}
    {instructions : List Instruction}
    (consecutive : Consecutive decoder elf addr instructions stop) :
    ∀ inst ∈ instructions, inst.controlFlowDimension ≠ 0 ->
      inst.updateFlags = Flags.none := by
  induction instructions generalizing addr with
  | nil => simp
  | cons inst rest inductionHypothesis =>
      simp only [List.forall_mem_cons]
      exact ⟨instructionAt_updateFlags_of_branch consecutive.1,
        inductionHypothesis consecutive.2⟩

/-- The step to the following instruction is the only one behind which an
instruction inside of a block leaves an undemanded flag exposed. -/
theorem exposed_following_of_not_demanded
    {addr successor : BitVec 64}
    {inst : Instruction}
    {flag : Flag}
    (fetched : instructionAt decoder elf addr = some inst)
    (continues : inst.endOfBlock = false)
    (noDemand : ¬Demands decoder elf depth inst flag)
    (step : inst.Successor (inst.following addr) successor)
    (exposed : (controlFlow decoder elf).Exposed flag successor) :
    (controlFlow decoder elf).Exposed flag (inst.following addr) := by
  rcases instructionAt_dimension_cases fetched with
    straight | ⟨_, ends⟩ | ⟨conditional, _⟩
  · exact step.eq_following straight continues ▸ exposed
  · simp [continues] at ends
  · rcases step.eq_or_eq_of_conditional fetched conditional with rfl | rfl
    · -- the target was looked at, or is not known to the look-ahead
      simp only [Demands, conditional, not_or, not_and] at noDemand
      obtain ⟨_, notAtBranch⟩ := noDemand.2 (by decide)
      exact absurd (exposed_flagGraph_of_controlFlow exposed)
        (soundPrediction_recursiveFlagRequirements depth _ _ flag
          mem_allFlags notAtBranch)
    · exact exposed

/-- The backward pass asks for every flag that is exposed in front of some
instructions, except for those that only their end exposes. -/
theorem mem_assignBackwards_of_exposed
    {addr lastAddr : BitVec 64}
    {front : List Instruction}
    {required : BitVec 64}
    {flag : Flag}
    (consecutive : Consecutive decoder elf addr front lastAddr)
    (continues : ∀ inst ∈ front, inst.endOfBlock = false)
    (exposed : (controlFlow decoder elf).Exposed flag addr) :
    flag ∈ (assignBackwards decoder elf depth required front).1 ∨
      flag ∉ required ∧ (controlFlow decoder elf).Exposed flag lastAddr ∧
        (∀ inst ∈ front, flag ∉ inst.updateFlags) ∧
        ∀ inst ∈ front, ¬Demands decoder elf depth inst flag := by
  induction front generalizing addr with
  | nil =>
      obtain rfl : addr = lastAddr := consecutive
      by_cases needed : flag ∈ required
      · exact .inl needed
      · exact .inr ⟨needed, exposed, by simp⟩
  | cons inst rest inductionHypothesis =>
      obtain ⟨fetched, restConsecutive⟩ := consecutive
      simp only [List.forall_mem_cons] at continues ⊢
      have before := @mem_requiredBefore decoder elf depth inst
        (assignBackwards decoder elf depth required rest).1 flag
        (instructionAt_updateFlags_of_branch fetched)
      by_cases demand : Demands decoder elf depth inst flag
      · exact .inl (before.mpr (.inl demand))
      rcases exposed_at_instruction fetched exposed with
        needed | ⟨notUpdated, successor, step, later⟩
      · exact absurd (.inl needed) demand
      have atFollowing : (controlFlow decoder elf).Exposed flag
          (inst.following addr) :=
        exposed_following_of_not_demanded fetched continues.1 demand step later
      rcases inductionHypothesis restConsecutive continues.2 atFollowing with
        needed | ⟨notNeeded, atLast, noUpdate, noDemand⟩
      · exact .inl (before.mpr (.inr ⟨needed, notUpdated⟩))
      · exact .inr ⟨notNeeded, atLast, ⟨notUpdated, noUpdate⟩,
          ⟨demand, noDemand⟩⟩

/-- No flag that is exposed at an address is left out of the look-ahead's
answer for it. -/
theorem mem_recursiveFlagRequirements_of_exposed
    {required address : BitVec 64}
    {flag : Flag}
    (asked : flag ∈ required)
    (exposed : (controlFlow decoder elf).Exposed flag address) :
    flag ∈ recursiveFlagRequirements decoder elf depth required address := by
  by_contra absent
  exact soundPrediction_recursiveFlagRequirements depth _ _ flag asked absent
    (exposed_flagGraph_of_controlFlow exposed)

/-- The flags required of a last instruction that branches directly are all
that the paths from it expose. -/
theorem mem_assignLast_of_direct
    {block : DecodedBlock}
    {last : Instruction}
    {lastAddr : BitVec 64}
    {flag : Flag}
    (fetched : instructionAt decoder elf lastAddr = some last)
    (stop : block.addr = last.following lastAddr)
    (direct : last.branchAddress ≠ 0)
    (exposed : (controlFlow decoder elf).Exposed flag lastAddr) :
    flag ∈ (assignLast decoder elf depth block last).1 := by
  simp only [assignLast, ne_eq, direct, not_false_eq_true, if_true]
  rcases instructionAt_dimension_cases fetched with
    straight | ⟨unconditional, _⟩ | ⟨conditional, _⟩
  · exact absurd (Instruction.branchAddress_of_dimension_zero straight) direct
  · have asked : flag ∈ allFlags &&& ~~~last.updateFlags.setWidth 64 := by
      simp [mem_allFlags,
        instructionAt_updateFlags_of_branch fetched (by omega)]
    simp only [unconditional, Flags.mem_or, Flags.mem_setWidth_size]
    rcases exposed_at_instruction fetched exposed with
      needed | ⟨_, successor, step, later⟩
    · exact .inr needed
    · obtain rfl := step.eq_branchAddress unconditional direct
      exact .inl (mem_recursiveFlagRequirements_of_exposed asked later)
  · have asked : flag ∈ allFlags &&& ~~~last.updateFlags.setWidth 64 := by
      simp [mem_allFlags,
        instructionAt_updateFlags_of_branch fetched (by omega)]
    simp only [conditional, Flags.mem_or, Flags.mem_setWidth_size]
    rcases exposed_at_instruction fetched exposed with
      needed | ⟨_, successor, step, later⟩
    · exact .inr needed
    · rcases step.eq_or_eq_of_conditional fetched conditional with rfl | rfl
      · exact .inl (.inr
          (mem_recursiveFlagRequirements_of_exposed asked later))
      · exact .inl (.inl
          (mem_recursiveFlagRequirements_of_exposed asked (stop ▸ later)))

/-- The address behind a block that falls into the next stored block has all
the flags exposed that its last instruction has, except for those the
instruction requires itself. -/
theorem exposed_end_of_falling
    {lastAddr : BitVec 64}
    {last : Instruction}
    {flag : Flag}
    (fetched : instructionAt decoder elf lastAddr = some last)
    (continues : last.endOfBlock = false)
    (indirect : last.branchAddress = 0)
    (exposed : (controlFlow decoder elf).Exposed flag lastAddr) :
    flag ∈ last.requireFlags ∨
      (controlFlow decoder elf).Exposed flag (last.following lastAddr) := by
  rcases exposed_at_instruction fetched exposed with
    needed | ⟨_, successor, step, later⟩
  · exact .inl needed
  refine .inr ?_
  rcases instructionAt_dimension_cases fetched with
    straight | ⟨_, ends⟩ | ⟨conditional, _⟩
  · exact step.eq_following straight continues ▸ later
  · simp [continues] at ends
  · rcases step.eq_or_eq_of_conditional fetched conditional with rfl | rfl
    · rw [indirect] at later
      exact absurd later not_exposed_zero
    · exact later

/-- The flags required of a block's last instruction are all that the paths
from it expose, except for its own when it falls into the next stored
block. -/
theorem mem_assignLast_of_exposed
    {block : DecodedBlock}
    {last : Instruction}
    {lastAddr : BitVec 64}
    {flag : Flag}
    (fetched : instructionAt decoder elf lastAddr = some last)
    (stop : block.addr = last.following lastAddr)
    (ends : last.endOfBlock = !block.reachesNextBlock)
    (exposed : (controlFlow decoder elf).Exposed flag lastAddr) :
    flag ∈ (assignLast decoder elf depth block last).1 ∨
      last.branchAddress = 0 ∧ block.reachesNextBlock = true ∧
        flag ∈ last.requireFlags := by
  by_cases direct : last.branchAddress = 0
  · cases reaches : block.reachesNextBlock
    · refine .inl ?_
      simp [assignLast, direct, reaches, mem_allFlags]
    · rw [reaches, Bool.not_true] at ends
      rcases exposed_end_of_falling fetched ends direct exposed with
        needed | atEnd
      · exact .inr ⟨direct, rfl, needed⟩
      · refine .inl ?_
        simp only [assignLast, direct, ne_eq, not_true_eq_false, if_false,
          reaches, if_true]
        rw [stop]
        exact mem_recursiveFlagRequirements_of_exposed mem_allFlags atEnd
  · exact .inl (mem_assignLast_of_direct fetched stop direct exposed)

/-! ## The update sets of a block -/

/-- The instruction with the updates that its class declares. -/
def declared (inst : Instruction) : Instruction :=
  inst.setUpdate inst.instructionClass.declaredUpdate

@[simp] theorem declared_toInstruction (inst : Instruction) :
    (declared inst).toInstruction = inst.toInstruction := rfl

@[simp] theorem declared_updateFlags (inst : Instruction) :
    (declared inst).updateFlags = inst.instructionClass.declaredUpdate := rfl

/-- Every instruction with an assigned update set, whose last declared update
of a flag is followed by a path to a reader without another update, is
assigned that update. -/
def KeepsNeededUpdates
    (decoder : Fadec.Decoder)
    (elf : Elf)
    (instructions : List Instruction) : Prop :=
  ∀ before updater between after flag,
    instructions = before ++ updater :: (between ++ after) ->
    flag ∈ updater.instructionClass.declaredUpdate ->
    (∀ inst ∈ between, flag ∉ inst.instructionClass.declaredUpdate) ->
    ∀ path length,
      path 0 = ((updater :: between).getLast (by simp)).address ->
      (controlFlow decoder elf).IsPath path (length + 1) ->
      (controlFlow decoder elf).reads (path (length + 1)) flag ->
      (∀ index < length,
        ¬(controlFlow decoder elf).writes (path (index + 1)) flag) ->
      flag ∈ updater.updateFlags

/-- Every flag that a block's last instruction requires is covered when the
block falls into the next stored block: it is found to be required there, or
demanded between its last update and the end of the block. -/
def LinkRequirementsCovered
    (decoder : Fadec.Decoder)
    (elf : Elf)
    (depth : Nat)
    (block : DecodedBlock) : Prop :=
  ∀ before updater between last flag,
    block.instructions = before ++ updater :: (between ++ [last]) ->
    last.branchAddress = 0 ->
    block.reachesNextBlock = true ->
    flag ∈ updater.updateFlags ->
    (∀ inst ∈ between, flag ∉ inst.updateFlags) ->
    flag ∈ last.requireFlags ->
    flag ∉ recursiveFlagRequirements decoder elf depth allFlags block.addr ->
    ∃ inst ∈ between, Demands decoder elf depth inst flag

theorem assignBackwards_append
    (required : BitVec 64)
    (first second : List Instruction) :
    assignBackwards decoder elf depth required (first ++ second) =
      let back := assignBackwards decoder elf depth required second
      let front := assignBackwards decoder elf depth back.1 first
      (front.1, front.2 ++ back.2) := by
  induction first with
  | nil => simp [assignBackwards]
  | cons inst rest inductionHypothesis =>
      simp [assignBackwards, inductionHypothesis]

@[simp] theorem length_assignBackwards
    (required : BitVec 64)
    (front : List Instruction) :
    (assignBackwards decoder elf depth required front).2.length =
      front.length := by
  induction front with
  | nil => rfl
  | cons inst rest inductionHypothesis =>
      simp [assignBackwards, inductionHypothesis]

theorem declared_setUpdate
    {inst : Instruction}
    (declares : inst.updateFlags = inst.instructionClass.declaredUpdate)
    (flags : BitVec 8) :
    declared (inst.setUpdate flags) = inst := by
  unfold declared Instruction.setUpdate
  simp only [← declares]

/-- The assigned instructions keep their addresses. -/
theorem getLast_address_of_map_declared
    {assigned decoded : List Instruction}
    (same : assigned.map declared = decoded)
    (nonempty : assigned ≠ [])
    (decodedNonempty : decoded ≠ []) :
    (assigned.getLast nonempty).address =
      (decoded.getLast decodedNonempty).address := by
  subst same
  rw [List.getLast_map]
  rfl

theorem map_declared_assignBackwards
    {front : List Instruction}
    (declares : ∀ inst ∈ front,
      inst.updateFlags = inst.instructionClass.declaredUpdate)
    (required : BitVec 64) :
    (assignBackwards decoder elf depth required front).2.map declared =
      front := by
  induction front with
  | nil => rfl
  | cons inst rest inductionHypothesis =>
      simp only [List.forall_mem_cons] at declares
      simp only [assignBackwards, List.map_cons,
        declared_setUpdate declares.1, inductionHypothesis declares.2]

/-- What one of the instructions in front of the last one is assigned. -/
theorem assignBackwards_split
    {front before rest : List Instruction}
    {updater : Instruction}
    {required : BitVec 64}
    (declares : ∀ inst ∈ front,
      inst.updateFlags = inst.instructionClass.declaredUpdate)
    (split : (assignBackwards decoder elf depth required front).2 =
      before ++ updater :: rest) :
    front = before.map declared ++ declared updater :: rest.map declared ∧
      updater.updateFlags =
        ((declared updater).updateFlags.setWidth 64 &&&
          (assignBackwards decoder elf depth required
            (rest.map declared)).1).setWidth 8 := by
  have frontEq : front =
      before.map declared ++ declared updater :: rest.map declared := by
    rw [← map_declared_assignBackwards declares required, split]
    simp
  refine ⟨frontEq, ?_⟩
  rw [frontEq, assignBackwards_append] at split
  simp only [assignBackwards] at split
  obtain ⟨_, tails⟩ := List.append_inj split (by simp)
  obtain ⟨same, _⟩ := List.cons.inj tails
  conv_lhs => rw [← same]
  rfl

/-- The assigned instructions of a block. -/
theorem assignUpdates_eq
    {block : DecodedBlock}
    {front : List Instruction}
    {last : Instruction}
    (split : block.instructions = front ++ [last]) :
    assignUpdates decoder elf depth block =
      (assignBackwards decoder elf depth
          (assignLast decoder elf depth block last).1 front).2 ++
        [(assignLast decoder elf depth block last).2] := by
  simp [assignUpdates, split]

theorem Consecutive.declares
    {addr stop : BitVec 64}
    {instructions : List Instruction}
    (consecutive : Consecutive decoder elf addr instructions stop) :
    ∀ inst ∈ instructions,
      inst.updateFlags = inst.instructionClass.declaredUpdate := by
  induction instructions generalizing addr with
  | nil => simp
  | cons inst rest inductionHypothesis =>
      simp only [List.forall_mem_cons]
      exact ⟨(instructionAt_declares consecutive.1).1,
        inductionHypothesis consecutive.2⟩

theorem Consecutive.instructionAt_address
    {addr stop : BitVec 64}
    {instructions : List Instruction}
    (consecutive : Consecutive decoder elf addr instructions stop) :
    ∀ inst ∈ instructions,
      instructionAt decoder elf inst.address = some inst := by
  induction instructions generalizing addr with
  | nil => simp
  | cons inst rest inductionHypothesis =>
      simp only [List.forall_mem_cons]
      refine ⟨?_, inductionHypothesis consecutive.2⟩
      rw [Oxtra.instructionAt_address consecutive.1]
      exact consecutive.1

/-- A flag that is exposed behind instructions that do not update it, which
follow one another, is exposed in front of them. -/
theorem exposed_of_consecutive
    {addr stop : BitVec 64}
    {instructions : List Instruction}
    {flag : Flag}
    (consecutive : Consecutive decoder elf addr instructions stop)
    (continues : ∀ inst ∈ instructions, inst.endOfBlock = false)
    (noUpdate : ∀ inst ∈ instructions, flag ∉ inst.updateFlags)
    (exposed : (controlFlow decoder elf).Exposed flag stop) :
    (controlFlow decoder elf).Exposed flag addr := by
  induction instructions generalizing addr with
  | nil =>
      obtain rfl : addr = stop := consecutive
      exact exposed
  | cons inst rest inductionHypothesis =>
      obtain ⟨fetched, restConsecutive⟩ := consecutive
      simp only [List.forall_mem_cons] at continues noUpdate
      refine .pass ?_ ⟨inst, fetched, ?_⟩
        (inductionHypothesis restConsecutive continues.2 noUpdate.2)
      · rintro ⟨other, otherFetched, updated⟩
        obtain rfl := Option.some.inj (fetched.symm.trans otherFetched)
        exact noUpdate.1 updated
      · exact Instruction.successor_following fetched continues.1

theorem map_declared_assignUpdates
    {addr : BitVec 64}
    {nextBlock : Option (BitVec 64)}
    {block : DecodedBlock}
    (describes : block.Describes decoder elf addr nextBlock) :
    (assignUpdates decoder elf depth block).map declared =
      block.instructions := by
  have split := List.dropLast_append_getLast describes.nonempty
  have declares := describes.consecutive.declares
  rw [← split] at declares
  rw [assignUpdates_eq split.symm, List.map_append,
    map_declared_assignBackwards fun inst member =>
      declares inst (List.mem_append_left _ member)]
  have lastDeclares := declares _ (List.mem_append_right _
    (List.mem_singleton_self _))
  conv_rhs => rw [← split]
  simp only [List.map_cons, List.map_nil, List.append_cancel_left_eq,
    List.cons.injEq, and_true]
  unfold assignLast
  split
  · exact declared_setUpdate lastDeclares _
  · split
    · exact declared_setUpdate lastDeclares _
    · exact declared_setUpdate lastDeclares _

/-- Instructions in front of others in a list are not the last. -/
theorem mem_dropLast_of_append
    {front back : List Instruction}
    {inst : Instruction}
    (member : inst ∈ front)
    (nonempty : back ≠ []) :
    inst ∈ (front ++ back).dropLast := by
  rw [List.dropLast_append_of_ne_nil nonempty]
  exact List.mem_append_left _ member

/-- A path that starts at the last of some instructions of a block, and
reaches a reader before a writer, exposes the flag behind the first of them
when none but the first updates it. -/
theorem exposed_behind_updater
    {addr stop : BitVec 64}
    {updater : Instruction}
    {between after : List Instruction}
    {flag : Flag}
    {path : Nat -> BitVec 64}
    {length : Nat}
    (fetched : instructionAt decoder elf addr = some updater)
    (consecutive : Consecutive decoder elf (updater.following addr)
      (between ++ after) stop)
    (continues : ∀ inst ∈ (updater :: (between ++ after)).dropLast,
      inst.endOfBlock = false)
    (notLast : between ++ after ≠ [])
    (updates : flag ∈ updater.updateFlags)
    (noUpdate : ∀ inst ∈ between, flag ∉ inst.updateFlags)
    (start : path 0 = ((updater :: between).getLast (by simp)).address)
    (isPath : (controlFlow decoder elf).IsPath path (length + 1))
    (reader : (controlFlow decoder elf).reads (path (length + 1)) flag)
    (clear : ∀ index < length,
      ¬(controlFlow decoder elf).writes (path (index + 1)) flag) :
    (controlFlow decoder elf).Exposed flag (updater.following addr) := by
  have behind : (controlFlow decoder elf).Exposed flag (path 1) :=
    FlowGraph.exposed_of_path isPath.tail reader clear
  obtain ⟨last, lastFetched, step⟩ := isPath 0 (by omega)
  rcases List.eq_nil_or_concat between with rfl | ⟨front, reached, rfl⟩
  · -- the path leaves the updater itself
    have atUpdater : path 0 = addr := by
      rw [start]
      exact Oxtra.instructionAt_address fetched
    rw [atUpdater] at lastFetched step
    obtain rfl := Option.some.inj (fetched.symm.trans lastFetched)
    have straight : updater.controlFlowDimension = 0 := by
      by_contra branches
      rw [instructionAt_updateFlags_of_branch fetched branches] at updates
      exact Flags.not_mem_none updates
    have inBlock : updater.endOfBlock = false := by
      refine continues updater ?_
      rw [List.dropLast_cons_of_ne_nil notLast]
      exact List.mem_cons_self
    exact step.eq_following straight inBlock ▸ behind
  · -- the path leaves a later instruction, behind ones that do not update
    rw [List.concat_eq_append] at *
    obtain ⟨reachedAddr, frontPart, rest⟩ :
        ∃ reachedAddr, Consecutive decoder elf (updater.following addr) front
          reachedAddr ∧
            instructionAt decoder elf reachedAddr = some reached := by
      rw [List.append_assoc] at consecutive
      obtain ⟨middle, frontPart, restPart⟩ := consecutive.of_append
      exact ⟨middle, frontPart, restPart.1⟩
    have atReached : path 0 = reachedAddr := by
      rw [start]
      simpa using Oxtra.instructionAt_address rest
    rw [atReached] at lastFetched step
    obtain rfl := Option.some.inj (rest.symm.trans lastFetched)
    refine exposed_of_consecutive frontPart ?_ ?_ (.pass ?_ ⟨_, rest, step⟩ behind)
    · intro inst member
      refine continues inst ?_
      rw [List.append_assoc, List.singleton_append, ← List.cons_append]
      exact mem_dropLast_of_append (List.mem_cons_of_mem _ member) (by simp)
    · intro inst member
      exact noUpdate inst (List.mem_append_left _ member)
    · rintro ⟨other, otherFetched, updated⟩
      obtain rfl := Option.some.inj (rest.symm.trans otherFetched)
      exact noUpdate reached (by simp) updated

/-- The last instruction of a block is assigned what it updates and what the
paths behind it expose. -/
theorem mem_updateFlags_of_last
    {block : DecodedBlock}
    {last : Instruction}
    {lastAddr successor : BitVec 64}
    {flag : Flag}
    (fetched : instructionAt decoder elf lastAddr = some last)
    (stop : block.addr = last.following lastAddr)
    (ends : last.endOfBlock = !block.reachesNextBlock)
    (updates : flag ∈ last.updateFlags)
    (step : last.Successor (last.following lastAddr) successor)
    (exposed : (controlFlow decoder elf).Exposed flag successor) :
    flag ∈ (assignLast decoder elf depth block last).2.updateFlags := by
  have straight : last.controlFlowDimension = 0 := by
    by_contra branches
    rw [instructionAt_updateFlags_of_branch fetched branches] at updates
    exact Flags.not_mem_none updates
  have indirect := Instruction.branchAddress_of_dimension_zero straight
  simp only [assignLast, indirect, ne_eq, not_true_eq_false, if_false]
  cases reaches : block.reachesNextBlock
  · exact updates
  · rw [reaches, Bool.not_true] at ends
    obtain rfl := step.eq_following straight ends
    simp only [if_true, Instruction.setUpdate_updateFlags,
      Flags.mem_setWidth_byte]
    rw [stop]
    exact mem_recursiveFlagRequirements_of_exposed mem_allFlags exposed

/-- An instruction in front of the last one is assigned what it updates and
what is exposed behind it, if the requirements of the last one are covered. -/
theorem mem_updateFlags_of_front
    {block : DecodedBlock}
    {before rest : List Instruction}
    {updater last : Instruction}
    {addr lastAddr : BitVec 64}
    {flag : Flag}
    (covered : LinkRequirementsCovered decoder elf depth block)
    (split : block.instructions = before ++ updater :: (rest ++ [last]))
    (consecutive : Consecutive decoder elf addr rest lastAddr)
    (continues : ∀ inst ∈ rest, inst.endOfBlock = false)
    (lastFetched : instructionAt decoder elf lastAddr = some last)
    (stop : block.addr = last.following lastAddr)
    (ends : last.endOfBlock = !block.reachesNextBlock)
    (updates : flag ∈ updater.updateFlags)
    (exposed : (controlFlow decoder elf).Exposed flag addr) :
    flag ∈ (assignBackwards decoder elf depth
      (assignLast decoder elf depth block last).1 rest).1 := by
  rcases mem_assignBackwards_of_exposed consecutive continues exposed with
    needed | ⟨notNeeded, atLast, noUpdate, noDemand⟩
  · exact needed
  rcases mem_assignLast_of_exposed lastFetched stop ends atLast with
    needed | ⟨indirect, reaches, required⟩
  · exact absurd needed notNeeded
  have absent : flag ∉ recursiveFlagRequirements decoder elf depth allFlags
      block.addr := by
    simpa [assignLast, indirect, reaches] using notNeeded
  obtain ⟨inst, member, demand⟩ := covered before updater rest last flag split
    indirect reaches updates noUpdate required absent
  exact absurd demand (noDemand inst member)

/-- Covered requirements are enough for every needed update to be kept. -/
theorem keepsNeededUpdates_of_covered
    {addr : BitVec 64}
    {nextBlock : Option (BitVec 64)}
    {block : DecodedBlock}
    (describes : block.Describes decoder elf addr nextBlock)
    (covered : LinkRequirementsCovered decoder elf depth block) :
    KeepsNeededUpdates decoder elf (assignUpdates decoder elf depth block) := by
  intro before updater between after flag split updates noUpdate path length
    start isPath reader clear
  -- the same positions in the block as it was decoded
  have decodedSplit : block.instructions = before.map declared ++
      declared updater :: (between ++ after).map declared := by
    rw [← @map_declared_assignUpdates decoder elf depth _ _ _ describes, split]
    simp
  obtain ⟨front, last, blockSplit⟩ :
      ∃ front last, block.instructions = front ++ [last] :=
    ⟨_, _, (List.dropLast_append_getLast describes.nonempty).symm⟩
  have ends : last.endOfBlock = !block.reachesNextBlock := by
    simpa [blockSplit] using describes.last_endOfBlock
  have consecutive := describes.consecutive
  rw [decodedSplit] at consecutive
  obtain ⟨updaterAddr, _, fetched, behind⟩ := consecutive.of_append
  rw [assignUpdates_eq blockSplit] at split
  rcases List.eq_nil_or_concat (between ++ after) with
    none | ⟨rest, assignedLast, behindSplit⟩
  · -- the updater is the last instruction
    obtain ⟨rfl, rfl⟩ := List.append_eq_nil_iff.mp none
    rw [List.append_nil] at split
    obtain ⟨_, lastEq⟩ := List.append_inj' split rfl
    have updaterEq : updater = (assignLast decoder elf depth block last).2 := by
      simpa using lastEq.symm
    obtain rfl : declared updater = last := by
      rw [blockSplit] at decodedSplit
      simpa using (List.append_inj' decodedSplit rfl).2.symm
    obtain ⟨_, pathFetched, step⟩ := isPath 0 (by omega)
    have atUpdater : path 0 = updaterAddr := by
      rw [start]
      simpa using Oxtra.instructionAt_address fetched
    rw [atUpdater] at pathFetched step
    obtain rfl := Option.some.inj (fetched.symm.trans pathFetched)
    rw [updaterEq]
    exact mem_updateFlags_of_last fetched behind.symm ends updates step
      (FlowGraph.exposed_of_path isPath.tail reader clear)
  · -- the updater is in front of the last instruction
    rw [List.concat_eq_append] at behindSplit
    have exposed : (controlFlow decoder elf).Exposed flag
        ((declared updater).following updaterAddr) := by
      rw [List.map_append] at behind decodedSplit
      refine exposed_behind_updater fetched behind ?_ ?_ updates ?_ ?_ isPath
        reader clear
      · intro inst member
        refine describes.front_continues inst ?_
        rw [decodedSplit, List.dropLast_append_of_ne_nil (by simp)]
        exact List.mem_append_right _ member
      · rw [← List.map_append, behindSplit]
        simp
      · simpa using noUpdate
      · rw [start]
        exact getLast_address_of_map_declared rfl _ _
    rw [behindSplit] at split decodedSplit behind
    rw [← List.cons_append, ← List.append_assoc] at split
    obtain ⟨frontEq, lastEq⟩ := List.append_inj' split rfl
    have frontDeclares : ∀ inst ∈ front,
        inst.updateFlags = inst.instructionClass.declaredUpdate := by
      intro inst member
      exact describes.consecutive.declares inst (by simp [blockSplit, member])
    obtain ⟨_, updaterFlags⟩ := assignBackwards_split frontDeclares frontEq
    rw [updaterFlags, Flags.mem_setWidth_byte, Flags.mem_and]
    refine ⟨by simpa using updates, ?_⟩
    have lastDeclared : declared assignedLast = last := by
      rw [blockSplit, List.map_append, ← List.cons_append,
        ← List.append_assoc] at decodedSplit
      simpa using (List.append_inj' decodedSplit rfl).2.symm
    rw [List.map_append, List.map_singleton, lastDeclared] at behind decodedSplit
    obtain ⟨lastAddr, restPart, lastFetched, stop⟩ := behind.of_concat
    refine mem_updateFlags_of_front covered decodedSplit restPart ?_
      lastFetched stop ends updates ?_
    · intro inst member
      refine describes.front_continues inst ?_
      rw [decodedSplit, List.dropLast_append_of_ne_nil (by simp)]
      refine List.mem_append_right _ ?_
      rw [← List.cons_append, List.dropLast_concat]
      exact List.mem_cons_of_mem _ member
    · exact exposed

end Passes

end CodeGenerator
end Oxtra

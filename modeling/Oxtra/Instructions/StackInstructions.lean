import Oxtra.Instructions.ConditionalJumps
import Oxtra.Instructions.StackOperands

/-!
# Stack instructions

A push moves the stack pointer before it loads its operand, a pop computes the
address of its destination before it moves the stack pointer, and a call
evaluates its target behind its push.  The operand is the right one if it does
not use the stack pointer.
-/

namespace Oxtra

open RiscV
open Encoding
open Helper
open Fadec (Operand OperandSize)
open Instruction

/-! ## `Push` -/

namespace Push

variable {inst : Instruction}

/-- The state of x86 behind a push. -/
def pushed (value : Word) (state : State) : State :=
  (movedStack (-8) state).store (state.get rsp - 8) 8 value

/-- The code reads its operand in the state in front of it, stores the value
below the stack pointer and moves the stack pointer. -/
def Pushes
    (inst : Instruction)
    (env : Environment)
    (code : List Inst)
    (state : State) : Prop :=
  let op := inst.getOperand 0
  let value := inst.operandValue op state
  ∃ visited final, env.Traces code state visited (.ended final) ∧
    accessesApart contextAddress visited =
      inst.loadAccesses op state ++ [storedWord (state.get rsp - 8) value] ∧
    SameGuest final (pushed value state)

/-- The operand does not use the stack pointer, and its address is not longer
than the address size. -/
def OperandStable (inst : Instruction) (state : State) : Prop :=
  ¬ inst.UsesStackPointer (inst.getOperand 0) ∧
    ((inst.getOperand 0).isMem = true ->
      inst.AddressFits (inst.getOperand 0) state)

section Code

variable (long : inst.LongOperand (inst.getOperand 0))

include long

theorem generate_eq :
    let loaded := inst.translateLong (inst.getOperand 0) .t0 .t1 false
    generate inst =
      addi rsp rsp (-8) :: (loaded.code ++ [sd rsp loaded.value 0]) := by
  simp only [generate, long.size, storeValue]
  rfl

theorem generate_iff
    {env : Environment}
    (permits : env.PermitsEverything)
    (state : State) :
    Pushes inst env (generate inst) state ↔ OperandStable inst state := by
  let op := inst.getOperand 0
  let loaded := inst.translateLong op .t0 .t1 false
  let moved := movedStack (-8) state
  let read := applyAll (env.origin + 4) moved loaded.code
  have straight : ∀ written ∈ generate inst, written.isStraight = true := by
    rw [generate_eq long]
    intro written member
    rcases List.mem_cons.mp member with rfl | further
    · rfl
    · rcases List.mem_append.mp further with load | store
      · exact translateLong_straight false written load
      · rw [List.mem_singleton.mp store]
        rfl
  have runs := Environment.traces_straight straight
    (permits.permitsAll state _)
  have kept : ∀ {register : Register}, register ≠ .t0 -> register ≠ .t1 ->
      read.get register = moved.get register :=
    fun notA notB => translateLong_get (by decide) (by decide) (by decide)
      (by decide) (by decide) false _ _ notA notB
  have memory : read.mem = state.mem :=
    translateLong_mem (by decide) (by decide) (by decide) (by decide)
      (by decide) false _ _
  have word : read.get loaded.value = inst.accessedWord op moved :=
    translateLong_value long (by decide) (by decide) (by decide) (by decide)
      (by decide) false _ _
  have stack : read.get rsp + signedImm (0 : BitVec 32) =
      state.get rsp - 8 := by
    rw [kept (by decide) (by decide), movedStack_rsp]
    have offset : signedImm (0 : BitVec 32) = 0 := by decide
    rw [offset, add_zero, ← sub_eq_add_neg]
  have final : applyAll env.origin state (generate inst) =
      read.store (state.get rsp - 8) 8 (inst.accessedWord op moved) := by
    rw [generate_eq long]
    change applyAll _ moved (loaded.code ++ [sd rsp loaded.value 0]) = _
    rw [applyAll_append, sd_eq, applyAll_cons, apply_store, applyAll_nil]
    change read.store (read.get rsp + signedImm (0 : BitVec 32)) 8
      (read.get loaded.value) = _
    rw [stack, word]
  have accesses : accessesApart contextAddress
      (Environment.straightTrace env.origin state (generate inst)) =
      inst.accessedLoads op moved ++
        [storedWord (state.get rsp - 8) (inst.accessedWord op moved)] := by
    rw [generate_eq long]
    change accessesApart contextAddress ((_, state) ::
      Environment.straightTrace (env.origin + 4) moved
        (loaded.code ++ [sd rsp loaded.value 0])) = _
    rw [Environment.straightTrace_append]
    change accessesApart contextAddress (_ ++ _) = _
    rw [accessesApart_append, translateLong_accesses long (by decide)
      (by decide) (by decide) (by decide) (by decide) false]
    change _ ++ [Access.store (read.get rsp + signedImm (0 : BitVec 32)) 8
      ((read.get loaded.value).toNat % 256 ^ 8)] = _
    rw [stack, word]
    rfl
  have reads := long.accessed_movedStack_iff (Or.inr rfl)
    (fun reg => rfl : ∀ reg, moved.get (mapReg reg) =
      (movedStack (-8) state).get (mapReg reg))
  have unchanged : moved.mem = state.mem := rfl
  simp only [unchanged, and_true] at reads
  rw [OperandStable, ← reads]
  constructor
  · rintro ⟨visited, last, traces, accessed, -⟩
    obtain ⟨rfl, -⟩ := runs.unique traces
    rw [accesses] at accessed
    obtain ⟨loads, stores⟩ := List.append_inj' accessed rfl
    exact ⟨loads, (storedWord_inj.mp (List.singleton_inj.mp stores)).2⟩
  · rintro ⟨loads, same⟩
    refine ⟨_, _, runs, ?_, ?_⟩
    · rw [accesses, loads, same]
    · rw [final, same]
      refine ⟨fun reg => kept ?_ ?_, ?_, kept (by decide) (by decide)⟩
      · exact ne_of_isGuest (isGuest_mapReg reg) (by decide)
      · exact ne_of_isGuest (isGuest_mapReg reg) (by decide)
      · change read.mem.store _ 8 _ = state.mem.store _ 8 _
        rw [memory]

end Code

end Push

/-! ## `Pop` -/

namespace Pop

variable {inst : Instruction}

/-- The word on top of the stack. -/
def poppedWord (state : State) : Word := state.mem.load (state.get rsp) 8

/-- The state of x86 behind a pop: the stack pointer is moved before the
destination is written. -/
def popped (inst : Instruction) (state : State) : State :=
  let moved := movedStack 8 state
  match inst.getOperand 0 with
  | .reg _ register type =>
      moved.set (mapRegType register type) (poppedWord state)
  | .mem size base =>
      moved.store (inst.guestAddress (.mem size base) moved) 8
        (poppedWord state)
  | .imm _ | .none => moved

/-- The store of the popped word. -/
def writeAccesses (inst : Instruction) (state : State) : List Access :=
  match inst.getOperand 0 with
  | .mem size base =>
      [storedWord (inst.guestAddress (.mem size base) (movedStack 8 state))
        (poppedWord state)]
  | _ => []

/-- The code loads the word on top of the stack and writes it to its
destination, as it is behind the move of the stack pointer. -/
def Pops
    (inst : Instruction)
    (env : Environment)
    (code : List Inst)
    (state : State) : Prop :=
  ∃ visited final, env.Traces code state visited (.ended final) ∧
    accessesApart contextAddress visited =
      .load (state.get rsp) 8 :: writeAccesses inst state ∧
    SameGuest final (popped inst state)

section Code

variable {env : Environment} (permits : env.PermitsEverything)
variable (long : inst.LongOperand (inst.getOperand 0))

include permits long

/-- A pop into a register moves the stack pointer behind the load. -/
theorem generate_reg_iff
    {size : OperandSize}
    {register : Fadec.Register}
    {type : Fadec.RegisterType}
    (isReg : inst.getOperand 0 = .reg size register type)
    (state : State) :
    Pops inst env (generate inst) state ↔
      ¬ inst.UsesStackPointer (inst.getOperand 0) := by
  have valid := long.valid
  have qword := long.size
  rw [isReg] at valid qword
  cases qword
  obtain rfl := low_of_valid valid (by decide)
  let dest := mapReg register
  have destNonzero : dest ≠ .zero :=
    ne_of_isGuest (isGuest_mapReg register) (by decide)
  have code : generate inst = [ld dest rsp 0, addi rsp rsp 8] := by
    simp only [generate, isReg, popRegister]
    rfl
  have straight : ∀ written ∈ generate inst, written.isStraight = true := by
    rw [code]
    simp only [List.forall_mem_cons]
    exact ⟨rfl, rfl, by simp⟩
  have runs := Environment.traces_straight straight
    (permits.permitsAll state _)
  have address : state.get rsp + signedImm (0 : BitVec 16) = state.get rsp := by
    have zero : signedImm (0 : BitVec 16) = 0 := by decide
    rw [zero, add_zero]
  have eight : signedImm (8 : BitVec 16) = 8 := by decide
  let loaded := state.set dest (poppedWord state)
  have final : applyAll env.origin state (generate inst) =
      loaded.set rsp (loaded.get rsp + 8) := by
    rw [code, ld_eq]
    simp only [applyAll_cons, applyAll_nil, apply_load, apply_addi, address,
      eight]
    rfl
  have accesses : accessesApart contextAddress
      (Environment.straightTrace env.origin state (generate inst)) =
      [.load (state.get rsp) 8] := by
    rw [code]
    change [Access.load (state.get rsp + signedImm (0 : BitVec 16)) 8] = _
    rw [address]
  have uses : inst.UsesStackPointer (inst.getOperand 0) ↔ dest = rsp := by
    rw [isReg]
    rfl
  have expected : popped inst state =
      (movedStack 8 state).set dest (poppedWord state) := by
    simp only [popped, isReg]
    rfl
  have writes : writeAccesses inst state = [] := by
    simp only [writeAccesses, isReg]
  rw [uses]
  constructor
  · rintro ⟨visited, last, traces, -, same⟩ isStack
    obtain ⟨-, ended⟩ := runs.unique traces
    cases ended
    have stack := same.registers register
    rw [final, expected] at stack
    change (loaded.set rsp (loaded.get rsp + 8)).get dest = _ at stack
    rw [State.set_get_self _ _ destNonzero, isStack,
      State.set_get_self _ _ (by decide), ← isStack,
      State.set_get_self _ _ destNonzero] at stack
    exact absurd (BitVec.add_right_eq_self.mp stack) (by decide)
  · intro notStack
    refine ⟨_, _, runs, ?_, ?_⟩
    · rw [accesses, writes]
    · rw [final, expected]
      have context : contextAddress ≠ dest :=
        (ne_of_isGuest (isGuest_mapReg register) (by decide)).symm
      refine ⟨fun reg => ?_, rfl, ?_⟩
      · by_cases own : mapReg reg = dest
        · rw [own, State.set_get_of_ne _ _ notStack,
            State.set_get_self _ _ destNonzero,
            State.set_get_self _ _ destNonzero]
        · rw [State.set_get_of_ne _ _ own]
          by_cases isStack : mapReg reg = rsp
          · rw [isStack, State.set_get_self _ _ (by decide), movedStack_rsp,
              State.set_get_of_ne _ _ (Ne.symm notStack)]
          · rw [State.set_get_of_ne _ _ isStack, movedStack_get _ _ isStack,
              State.set_get_of_ne _ _ own]
      · rw [State.set_get_of_ne _ _ (by decide),
          State.set_get_of_ne _ _ context, State.set_get_of_ne _ _ context,
          movedStack_get _ _ (by decide)]

/-- A pop into the memory computes its address in front of the move. -/
theorem generate_mem_iff
    {size : OperandSize}
    {base : Option Fadec.Register}
    (isMem : inst.getOperand 0 = .mem size base)
    (state : State) :
    Pops inst env (generate inst) state ↔
      ¬ inst.UsesStackPointer (inst.getOperand 0) := by
  have qword := long.size
  rw [isMem] at qword
  cases qword
  let op := Operand.mem .qword base
  let address := inst.translateMemory op .t0 .t1 false
  let addressed := applyAll env.origin state address.1
  let loaded := addressed.set .t1 (poppedWord state)
  have code : generate inst =
      address.1 ++ [ld .t1 rsp 0, sd address.2 .t1 0, addi rsp rsp 8] := by
    simp only [generate, isMem, popMemory, List.append_assoc]
    rfl
  have computes : ComputesInto [.t0, .t1] address.1 :=
    inst.translateMemory_computesInto op false
  have value : addressed.get address.2 = inst.operandAddress op state :=
    inst.translateMemory_value _ state (by decide) (by decide) (by decide)
      (inst.not_clobbers_of_reserved op (by decide)) false
  have place : address.2 ≠ .t1 ∧ address.2 ≠ contextAddress := by
    rcases @translateMemory_result inst op .t0 .t1 (by decide) false with
      zero | guest | member
    · change address.2 = .zero at zero
      rw [zero]
      decide
    · exact ⟨ne_of_isGuest guest (by decide), ne_of_isGuest guest (by decide)⟩
    · have same : address.2 = .t0 := List.mem_singleton.mp member
      rw [same]
      decide
  have straight : ∀ written ∈ generate inst, written.isStraight = true := by
    rw [code]
    intro written member
    rcases List.mem_append.mp member with sum | rest
    · exact computes.straight written sum
    · simp only [List.mem_cons, List.not_mem_nil, or_false] at rest
      rcases rest with rfl | rfl | rfl <;> rfl
  have runs := Environment.traces_straight straight
    (permits.permitsAll state _)
  have zero : signedImm (0 : BitVec 16) = 0 := by decide
  have wideZero : signedImm (0 : BitVec 32) = 0 := by decide
  have eight : signedImm (8 : BitVec 16) = 8 := by decide
  have stack : addressed.get rsp = state.get rsp :=
    computes.get _ _ (by decide)
  have memory : addressed.mem = state.mem := computes.mem _ _
  have final : applyAll env.origin state (generate inst) =
      (loaded.store (inst.operandAddress op state) 8 (poppedWord state)).set
        rsp (state.get rsp + 8) := by
    rw [code, applyAll_append, ld_eq, sd_eq]
    simp only [applyAll_cons, applyAll_nil, apply_load, apply_addi,
      apply_store, zero, wideZero, eight, add_zero]
    change (State.store (addressed.set .t1 (addressed.mem.load
      (addressed.get rsp) 8)) _ 8 _).set rsp _ = _
    rw [stack, memory]
    change (loaded.store (loaded.get address.2) 8 (loaded.get .t1)).set rsp
      ((loaded.store _ 8 _).get rsp + 8) = _
    rw [State.store_get, State.set_get_of_ne _ _ place.1, value,
      State.set_get_self _ _ (by decide), State.set_get_of_ne _ _ (by decide),
      stack]
  have accesses : accessesApart contextAddress
      (Environment.straightTrace env.origin state (generate inst)) =
      [.load (state.get rsp) 8,
        storedWord (inst.operandAddress op state) (poppedWord state)] := by
    rw [code, Environment.straightTrace_append, accessesApart_append,
      computes.accessesApart]
    have top : addressed.get rsp + signedImm (0 : BitVec 16) =
        state.get rsp := by
      rw [zero, add_zero, stack]
    have target : loaded.get address.2 + signedImm (0 : BitVec 32) =
        inst.operandAddress op state := by
      rw [wideZero, add_zero, State.set_get_of_ne _ _ place.1, value]
    have word : addressed.mem.load (addressed.get rsp +
        signedImm (0 : BitVec 16)) 8 = poppedWord state := by
      rw [top, memory]
      rfl
    change accessesApart contextAddress [(ld .t1 rsp 0, addressed),
      (sd address.2 .t1 0, addressed.set .t1 (addressed.mem.load
        (addressed.get rsp + signedImm (0 : BitVec 16)) 8)),
      (addi rsp rsp 8, _)] = _
    rw [word, ld_eq, sd_eq, accessesApart_load (by decide),
      accessesApart_store place.2, accessesApart_silent _ _ rfl, top, target,
      State.set_get_self _ _ (by decide)]
    rfl
  have expected : popped inst state = (movedStack 8 state).store
      (inst.operandAddress op (movedStack 8 state)) 8 (poppedWord state) := by
    simp only [popped, isMem, long.noOverride.guestAddress]
    rfl
  have writes : writeAccesses inst state =
      [storedWord (inst.operandAddress op (movedStack 8 state))
        (poppedWord state)] := by
    simp only [writeAccesses, isMem, long.noOverride.guestAddress]
    rfl
  rw [isMem, ← operandAddress_movedStack_iff (Or.inl rfl) state]
  constructor
  · rintro ⟨visited, last, traces, accessed, -⟩
    obtain ⟨rfl, -⟩ := runs.unique traces
    rw [accesses, writes] at accessed
    simp only [List.cons.injEq, true_and, and_true, storedWord_inj] at accessed
    exact accessed
  · intro same
    change inst.operandAddress op state = _ at same
    refine ⟨_, _, runs, ?_, ?_⟩
    · rw [accesses, writes, same]
    · rw [final, expected, same]
      refine ⟨fun reg => ?_, ?_, ?_⟩
      · by_cases isStack : mapReg reg = rsp
        · rw [isStack, State.set_get_self _ _ (by decide)]
          exact (movedStack_rsp 8 state).symm
        · have guest := isGuest_mapReg reg
          rw [State.set_get_of_ne _ _ isStack, State.store_get,
            State.set_get_of_ne _ _ (ne_of_isGuest guest (by decide)),
            State.store_get, movedStack_get _ _ isStack]
          exact computes.get _ _ (by
            simp [ne_of_isGuest guest (by decide : isGuest .t0 = false),
              ne_of_isGuest guest (by decide : isGuest .t1 = false)])
      · change addressed.mem.store _ 8 _ = state.mem.store _ 8 _
        rw [memory]
      · rw [State.set_get_of_ne _ _ (by decide), State.store_get,
          State.set_get_of_ne _ _ (by decide), State.store_get,
          movedStack_get _ _ (by decide)]
        exact computes.get _ _ (by decide)

/-- A pop writes its destination as on x86 if and only if it does not use the
stack pointer. -/
theorem generate_iff
    (located : (inst.getOperand 0).isImm = false)
    (state : State) :
    Pops inst env (generate inst) state ↔
      ¬ inst.UsesStackPointer (inst.getOperand 0) := by
  cases destination : inst.getOperand 0 with
  | none => exact absurd destination long.valued
  | imm size =>
      rw [destination] at located
      cases located
  | reg size register type =>
      rw [← destination]
      exact generate_reg_iff permits long destination state
  | mem size base =>
      rw [← destination]
      exact generate_mem_iff permits long destination state

end Code

end Pop

/-! ## `Jmp` and `Call` -/

namespace Instruction

variable {inst : Instruction}

/-- The code leaves for the block at the address that the operand has in the
state in front of it, with the guest in an expected state. -/
def GoesTo
    (inst : Instruction)
    (env : Environment)
    (code : List Inst)
    (state expected : State) : Prop :=
  let op := inst.getOperand 0
  ∃ visited final entry, (entry = JumpTable.Entry.rerouteStatic ∨
      entry = JumpTable.Entry.rerouteDynamic) ∧
    env.Traces code state visited (.left (entry.address state) final) ∧
    loadsInto addressDestination visited = inst.loadAccesses op state ∧
    final.get addressDestination = inst.operandValue op state ∧
    SameGuest final expected

/-- The routines for jumps do not return to the block. -/
structure JumpsAway (runtime : JumpTable.Runtime) : Prop where
  static : ∀ state, runtime .rerouteStatic state = none
  dynamic : ∀ state, runtime .rerouteDynamic state = none

section Jump

variable {runtime : JumpTable.Runtime} (away : JumpsAway runtime)
variable {env : Environment} (permits : env.PermitsEverything)
variable {state : State} (aligned : TableAligned state)

include away permits aligned

/-- Code that ends with a jump into the table. -/
theorem traces_jumpTableEntry
    {code : List Inst}
    (straight : ∀ written ∈ code, written.isStraight = true)
    {entry : JumpTable.Entry}
    (isJump : entry = .rerouteStatic ∨ entry = .rerouteDynamic)
    (table : (applyAll env.origin state code).get jumpTableAddress =
      state.get jumpTableAddress) :
    ∃ further final,
      (JumpTable.dispatch runtime env).Traces
        (code ++ JumpTable.jumpTableEntry entry) state
        (Environment.straightTrace env.origin state code ++ further)
        (.left (entry.address state) final) ∧
      loadsInto addressDestination further = [] ∧
      (∀ register, register ≠ .ra -> final.get register =
        (applyAll env.origin state code).get register) ∧
      final.mem = (applyAll env.origin state code).mem := by
  let dispatch := JumpTable.dispatch runtime env
  have dispatchPermits : dispatch.PermitsEverything := permits
  let last := applyAll env.origin state code
  let rest := env.shift code.length
  have permitsRest : rest.PermitsEverything := permits
  have runs : dispatch.Traces code state
      (Environment.straightTrace env.origin state code) (.ended last) :=
    Environment.traces_straight straight
      (dispatchPermits.permitsAll state code)
  have alignedLast : TableAligned last := by
    rw [TableAligned, table]
    exact aligned
  have leaves : (JumpTable.dispatch runtime rest).Exits
      (JumpTable.jumpTableEntry entry) last
      (.left (entry.address last) (last.set .ra (rest.address 1))) := by
    rcases isJump with rfl | rfl
    · exact jumpTableEntry_leaves permitsRest alignedLast
        (rfl : JumpTable.Entry.rerouteStatic.destination = _) (by decide)
        (away.static _)
    · exact jumpTableEntry_leaves permitsRest alignedLast
        (rfl : JumpTable.Entry.rerouteDynamic.destination = _) (by decide)
        (away.dynamic _)
  obtain ⟨further, traces⟩ := leaves.traces
  have place : entry.address last = entry.address state := by
    rw [JumpTable.Entry.address, JumpTable.Entry.address, table]
  rw [place] at traces
  refine ⟨further, _, runs.append traces (by simp), ?_, ?_, rfl⟩
  · apply loadsInto_eq_nil
    intro visit member
    have same := List.mem_singleton.mp (traces.mem_code member)
    rw [same]
    exact Or.inl rfl
  · intro register other
    exact State.set_get_of_ne _ _ other

/-- The code of a jump reads its operand and leaves for its block. -/
theorem generateJump_traces (long : inst.LongOperand (inst.getOperand 0)) :
    let op := inst.getOperand 0
    ∃ visited final entry, (entry = JumpTable.Entry.rerouteStatic ∨
        entry = JumpTable.Entry.rerouteDynamic) ∧
      (JumpTable.dispatch runtime env).Traces (Jcc.generateJump inst) state
        visited (.left (entry.address state) final) ∧
      loadsInto addressDestination visited = inst.accessedLoads op state ∧
      final.get addressDestination = inst.accessedWord op state ∧
      SameGuest final state := by
  intro op
  by_cases isImm : op.isImm = true
  · have code : Jcc.generateJump inst =
        loadAddress inst.immediate addressDestination ++
          JumpTable.jumpTableEntry .rerouteStatic := by
      simp only [Jcc.generateJump]
      rw [if_pos isImm]
      rfl
    have plain : ∀ written ∈ loadAddress inst.immediate addressDestination,
        written.isStraight = true ∧ written.base = none := by
      simp only [loadAddress, List.forall_mem_cons]
      exact ⟨⟨rfl, rfl⟩, ⟨rfl, rfl⟩, ⟨rfl, rfl⟩, ⟨rfl, rfl⟩, ⟨rfl, rfl⟩,
        ⟨rfl, rfl⟩, ⟨rfl, rfl⟩, ⟨rfl, rfl⟩, by simp⟩
    have loaded := applyAll_loadAddress env.origin state inst.immediate
      (by decide : addressDestination ≠ .zero)
    obtain ⟨further, final, traces, hidden, registers, memory⟩ :=
      traces_jumpTableEntry away permits aligned
        (fun written member => (plain written member).1) (Or.inl rfl) (by
          rw [loaded, State.set_get_of_ne _ _ (by decide)])
    rw [loaded] at registers memory
    have silent : loadsInto addressDestination
        (Environment.straightTrace env.origin state
          (loadAddress inst.immediate addressDestination)) = [] :=
      loadsInto_eq_nil fun visit member => Or.inl
        (plain _ (mem_code_of_mem_straightTrace member)).2
    have unloaded : inst.accessedLoads op state = [] ∧
        inst.accessedWord op state = inst.immediate := by
      cases kind : op with
      | imm size => exact ⟨rfl, rfl⟩
      | _ =>
          rw [kind] at isImm
          cases isImm
    rw [unloaded.1, unloaded.2]
    refine ⟨_, final, _, Or.inl rfl, code ▸ traces, ?_, ?_, ?_, memory, ?_⟩
    · rw [loadsInto_append, silent, hidden]
      rfl
    · rw [registers _ (by decide), State.set_get_self _ _ (by decide)]
    · intro reg
      have guest := isGuest_mapReg reg
      rw [registers _ (ne_of_isGuest guest (by decide)),
        State.set_get_of_ne _ _ (ne_of_isGuest guest (by decide))]
    · rw [registers _ (by decide), State.set_get_of_ne _ _ (by decide)]
  · let loaded := inst.translateLong op addressDestination .t0 true
    have code : Jcc.generateJump inst =
        loaded.code ++ JumpTable.jumpTableEntry .rerouteDynamic := by
      simp only [Jcc.generateJump]
      rw [if_neg isImm]
      rfl
    have kept : ∀ {register : Register}, register ≠ addressDestination ->
        register ≠ .t0 ->
        (applyAll env.origin state loaded.code).get register =
          state.get register :=
      fun notA notB => translateLong_get (by decide) (by decide) (by decide)
        (by decide) (by decide) true _ _ notA notB
    have place : loaded.value = addressDestination := by
      rcases @translateLong_register inst op long addressDestination .t0 true
        with same | ⟨impossible, -⟩
      · exact same
      · cases impossible
    have word : (applyAll env.origin state loaded.code).get loaded.value =
        inst.accessedWord op state :=
      translateLong_value long (by decide) (by decide) (by decide) (by decide)
        (by decide) true env.origin state
    have loads := translateLong_loads long
      (by decide : Scratch addressDestination) (by decide : Scratch .t0)
      (by decide) (by decide) (by decide) true env.origin state
    have untouched : (applyAll env.origin state loaded.code).mem = state.mem :=
      translateLong_mem (by decide) (by decide) (by decide) (by decide)
        (by decide) true env.origin state
    rw [place] at word
    obtain ⟨further, final, traces, hidden, registers, memory⟩ :=
      traces_jumpTableEntry away permits aligned
        (fun written member => translateLong_straight true written member)
        (Or.inr rfl) (kept (by decide) (by decide))
    refine ⟨_, final, _, Or.inr rfl, code ▸ traces, ?_, ?_, ?_, ?_, ?_⟩
    · rw [loadsInto_append, hidden, List.append_nil]
      exact loads
    · rw [registers _ (by decide), word]
    · intro reg
      have guest := isGuest_mapReg reg
      rw [registers _ (ne_of_isGuest guest (by decide))]
      exact kept (ne_of_isGuest guest (by decide))
        (ne_of_isGuest guest (by decide))
    · rw [memory, untouched]
    · rw [registers _ (by decide)]
      exact kept (by decide) (by decide)

/-- A jump behind other code goes to the block of x86 if and only if its
operand is accessed there as it is in the state in front of the code. -/
theorem goesTo_iff
    (long : inst.LongOperand (inst.getOperand 0))
    {front : List Inst}
    (straight : ∀ written ∈ front, written.isStraight = true)
    {expected : State}
    (same : SameGuest (applyAll env.origin state front) expected)
    (table : (applyAll env.origin state front).get jumpTableAddress =
      state.get jumpTableAddress)
    (silent : loadsInto addressDestination
      (Environment.straightTrace env.origin state front) = []) :
    let op := inst.getOperand 0
    GoesTo inst (JumpTable.dispatch runtime env)
        (front ++ Jcc.generateJump inst) state expected ↔
      inst.accessedLoads op (applyAll env.origin state front) =
          inst.loadAccesses op state ∧
        inst.accessedWord op (applyAll env.origin state front) =
          inst.operandValue op state := by
  intro op
  let before := applyAll env.origin state front
  let dispatch := JumpTable.dispatch runtime env
  have dispatchPermits : dispatch.PermitsEverything := permits
  have permitsRest : (env.shift front.length).PermitsEverything := permits
  have alignedBefore : TableAligned before := by
    rw [TableAligned, table]
    exact aligned
  have first : dispatch.Traces front state
      (Environment.straightTrace env.origin state front) (.ended before) :=
    Environment.traces_straight straight
      (dispatchPermits.permitsAll state front)
  obtain ⟨visited, final, entry, isJump, traces, loads, word, guest⟩ :=
    generateJump_traces away permitsRest alignedBefore long
  have place : entry.address before = entry.address state := by
    rw [JumpTable.Entry.address, JumpTable.Entry.address, table]
  rw [place] at traces
  have runs := first.append traces (by simp)
  constructor
  · rintro ⟨all, last, other, -, tracesAll, loadsAll, wordAll, -⟩
    obtain ⟨rfl, ended⟩ := runs.unique tracesAll
    obtain ⟨-, rfl⟩ := Exit.left.inj ended
    rw [loadsInto_append, silent, List.nil_append, loads] at loadsAll
    rw [word] at wordAll
    exact ⟨loadsAll, wordAll⟩
  · rintro ⟨sameLoads, sameWord⟩
    refine ⟨_, final, entry, isJump, runs, ?_, ?_, ?_, ?_, ?_⟩
    · rw [loadsInto_append, silent, List.nil_append, loads]
      exact sameLoads
    · rw [word]
      exact sameWord
    · intro reg
      rw [guest.registers, same.registers]
    · rw [guest.memory, same.memory]
    · rw [guest.context, same.context]

theorem jump_goesTo_iff (long : inst.LongOperand (inst.getOperand 0)) :
    GoesTo inst (JumpTable.dispatch runtime env) (Jmp.generate inst) state
        state ↔
      ((inst.getOperand 0).isMem = true ->
        inst.AddressFits (inst.getOperand 0) state) := by
  rw [← long.accessed_iff state]
  exact @goesTo_iff inst runtime away env permits state aligned long []
    (by simp) state ⟨fun _ => rfl, rfl, rfl⟩ rfl rfl

end Jump

end Instruction

namespace Call

variable {inst : Instruction}

/-- The entry of the call table has the return address, and neither the entry
nor the operand is where the return stack is written. -/
structure Entered
    (inst : Instruction)
    (entries : Nat)
    (state : State) : Prop where
  entry : state.mem.load
    (state.get callTableAddress + tableOffset entries) 8 = inst.nextAddress
  entryApart : ∀ index < 8, 4 ≤ (state.get callTableAddress +
    tableOffset entries + BitVec.ofNat 64 index - state.get returnStack).toNat
  operandApart : (inst.getOperand 0).isMem = true -> ∀ index < 8,
    4 ≤ (inst.operandAddress (inst.getOperand 0) state +
      BitVec.ofNat 64 index - state.get returnStack).toNat

/-- An entry of the call table: the address behind a call, and that of its code
once it is known. -/
structure CallEntry where
  x86Address : Word
  riscvAddress : Word

/-- The translation of a call adds an entry with its return address. -/
def emplaceBack (callTable : List CallEntry) (inst : Instruction) :
    List CallEntry :=
  callTable ++ [⟨inst.nextAddress, 0⟩]

/-- The call table behind further translations, and behind returns that note the
code of an entry. -/
inductive Grows (callTable : List CallEntry) : List CallEntry -> Prop where
  | start : Grows callTable callTable
  | call {later : List CallEntry} (grows : Grows callTable later)
      (inst : Instruction) : Grows callTable (emplaceBack later inst)
  | returns {later : List CallEntry} (grows : Grows callTable later)
      (index : Nat) (riscv : Word) :
      Grows callTable
        (later.modify index fun entry => { entry with riscvAddress := riscv })

/-- The call table is in the memory, in entries of sixteen bytes. -/
def HoldsCallTable (callTable : List CallEntry) (state : State) : Prop :=
  ∀ index entry, callTable[index]? = some entry ->
    state.mem.load (state.get callTableAddress + tableOffset index) 8 =
      entry.x86Address

/-- The return address of an entry stays. -/
theorem Grows.x86Address
    {callTable later : List CallEntry}
    (grows : Grows callTable later)
    {index : Nat}
    {entry : CallEntry}
    (found : callTable[index]? = some entry) :
    ∃ other, later[index]? = some other ∧
      other.x86Address = entry.x86Address := by
  induction grows with
  | start => exact ⟨entry, found, rfl⟩
  | call _ _ inductionHypothesis =>
      obtain ⟨other, isOther, same⟩ := inductionHypothesis
      refine ⟨other, ?_, same⟩
      rw [emplaceBack, List.getElem?_append_left
        (List.getElem?_eq_some_iff.mp isOther).1, isOther]
  | returns _ noted riscv inductionHypothesis =>
      obtain ⟨other, isOther, same⟩ := inductionHypothesis
      rw [List.getElem?_modify, isOther]
      refine ⟨_, rfl, ?_⟩
      split <;> exact same

/-- A call that has been translated finds its return address in the table. -/
theorem Entered.of_callTable
    {callTable later : List CallEntry}
    {state : State}
    (grows : Grows (emplaceBack callTable inst) later)
    (holds : HoldsCallTable later state)
    (entryApart : ∀ index < 8, 4 ≤ (state.get callTableAddress +
      tableOffset callTable.length + BitVec.ofNat 64 index -
        state.get returnStack).toNat)
    (operandApart : (inst.getOperand 0).isMem = true -> ∀ index < 8,
      4 ≤ (inst.operandAddress (inst.getOperand 0) state +
        BitVec.ofNat 64 index - state.get returnStack).toNat) :
    Entered inst callTable.length state := by
  refine ⟨?_, entryApart, operandApart⟩
  obtain ⟨entry, isEntry, same⟩ := grows.x86Address
    (List.getElem?_concat_length (l := callTable))
  rw [holds callTable.length entry isEntry, same]

/-- The state behind the push of the return address, which the translator also
notes on its own stack. -/
def entered (inst : Instruction) (entries : Nat) (state : State) : State :=
  ((movedStack (-8) state).store (state.get returnStack) 4
    (tableOffset entries)).store (state.get rsp - 8) 8 inst.nextAddress

/-- The registers that the code of the push writes. -/
def pushScratch : List Register := [.t0, .t1, returnStack]

/-- The offset is an immediate if it is small. -/
theorem signedImm_offset
    {offset : Word}
    (small : offset < 0x800) :
    signedImm (offset.setWidth 16) = offset := by
  rw [signedImm_setWidth _ (by decide)]
  have bound : offset.toNat < 0x800 := small
  have value : offset.toInt = offset.toNat :=
    BitVec.toInt_eq_toNat_of_lt (by omega)
  exact signedImm_of_small (by omega) (by omega)

/-- The offset is stored at the place of the return stack. -/
theorem pushOffset_spec (offset pc : Word) (state : State) :
    let noted := applyAll pc state (pushOffset offset)
    (∀ register, register ≠ .t0 -> register ≠ returnStack ->
      noted.get register = state.get register) ∧
      noted.get .t0 = offset ∧
      noted.mem = state.mem.store (state.get returnStack) 4 offset := by
  have zero : signedImm (0 : BitVec 32) = 0 := by decide
  intro noted
  have applied : noted = applyAll (pc + BitVec.ofNat 64
      (4 * (loadImmediate offset .t0).length)) (state.set .t0 offset)
      [sw returnStack .t0 0, addi returnStack returnStack 4,
        andi returnStack returnStack 0b101111111111] := by
    simp only [noted]
    rw [pushOffset, applyAll_append, applyAll_loadImmediate (by decide)]
  simp only [applyAll_cons, applyAll_nil, sw_eq, apply_store, apply_addi,
    apply_andi, zero, add_zero] at applied
  rw [applied]
  refine ⟨fun register notOffset notStack => ?_, ?_, ?_⟩
  · rw [State.set_get_of_ne _ _ notStack, State.set_get_of_ne _ _ notStack,
      State.store_get, State.set_get_of_ne _ _ notOffset]
  · rw [State.set_get_of_ne _ _ (by decide), State.set_get_of_ne _ _ (by decide),
      State.store_get, State.set_get_self _ _ (by decide)]
  · rw [State.set_mem, State.set_mem, State.store_mem,
      State.set_get_of_ne _ _ (by decide), State.set_get_self _ _ (by decide)]
    rfl

/-- The return address is loaded from the entry and stored below the stack
pointer. -/
theorem pushReturnAddress_spec
    {offset pc : Word}
    {state : State}
    (loaded : state.get .t0 = offset) :
    let value := state.mem.load (state.get callTableAddress + offset) 8
    let pushed := applyAll pc state (pushReturnAddress offset)
    (∀ register, register ≠ .t1 ->
      pushed.get register = (movedStack (-8) state).get register) ∧
      pushed.mem = state.mem.store (state.get rsp - 8) 8 value := by
  have zero : signedImm (0 : BitVec 16) = 0 := by decide
  have wideZero : signedImm (0 : BitVec 32) = 0 := by decide
  have eight : signedImm (-8 : BitVec 16) = -8 := by decide
  intro value pushed
  -- both ways to the entry leave its return address in the temporary
  obtain ⟨address, applied⟩ : ∃ address, pushed = applyAll address
      (state.set .t1 value) [addi rsp rsp (-8), sd rsp .t1 0] := by
    simp only [pushed, pushReturnAddress]
    rw [applyAll_append]
    refine ⟨_, congrArg (fun before => applyAll _ before _) ?_⟩
    split
    · rename_i small
      simp only [ld_eq, applyAll_cons, applyAll_nil, apply_load,
        signedImm_offset small]
      rfl
    · simp only [ld_eq, applyAll_cons, applyAll_nil, apply_add, apply_load,
        zero, add_zero, State.set_set, loaded]
      rw [State.set_get_self _ _ (by decide)]
      rfl
  simp only [sd_eq, applyAll_cons, applyAll_nil, apply_addi, apply_store,
    eight, wideZero, add_zero] at applied
  rw [applied]
  refine ⟨fun register notLoaded => ?_, ?_⟩
  · rw [State.store_get]
    by_cases isStack : register = rsp
    · rw [isStack, State.set_get_self _ _ (by decide), movedStack_rsp,
        State.set_get_of_ne _ _ (by decide)]
    · rw [State.set_get_of_ne _ _ isStack, movedStack_get _ _ isStack,
        State.set_get_of_ne _ _ notLoaded]
  · rw [State.store_mem, State.set_get_self _ _ (by decide),
      State.set_get_of_ne _ _ (by decide), State.set_get_of_ne _ _ (by decide),
      State.set_get_self _ _ (by decide), sub_eq_add_neg]
    rfl

/-- The code in front of the jump pushes the return address. -/
theorem push_spec
    {entries : Nat}
    {state : State}
    (situation : Entered inst entries state)
    (pc : Word) :
    let front := pushOffset (tableOffset entries) ++
      pushReturnAddress (tableOffset entries)
    (∀ register, register ∉ pushScratch ->
      (applyAll pc state front).get register =
        (movedStack (-8) state).get register) ∧
      (applyAll pc state front).mem = (entered inst entries state).mem := by
  intro front
  obtain ⟨notedRegisters, offset, notedMemory⟩ :=
    pushOffset_spec (tableOffset entries) pc state
  obtain ⟨registers, memory⟩ := @pushReturnAddress_spec _
    (pc + BitVec.ofNat 64 (4 * (pushOffset (tableOffset entries)).length)) _
    offset
  have table := notedRegisters callTableAddress (by decide) (by decide)
  have stack := notedRegisters rsp (by decide) (by decide)
  have kept : (state.mem.store (state.get returnStack) 4
      (tableOffset entries)).load
        (state.get callTableAddress + tableOffset entries) 8 =
      inst.nextAddress := by
    rw [← situation.entry]
    apply Memory.load_congr
    intro index inside
    exact Memory.store_of_outside _ _ (situation.entryApart index inside)
  rw [table, stack, notedMemory, kept] at memory
  simp only [front, applyAll_append]
  refine ⟨fun register outside => ?_, memory⟩
  simp only [pushScratch, List.mem_cons, List.not_mem_nil, or_false,
    not_or] at outside
  rw [registers _ outside.2.1]
  by_cases isStack : register = rsp
  · rw [isStack, movedStack_rsp, movedStack_rsp, stack]
  · rw [movedStack_get _ _ isStack, movedStack_get _ _ isStack,
      notedRegisters _ outside.1 outside.2.2]

/-- The code of the push is straight and loads no target. -/
theorem push_straight (offset : Word) :
    ∀ written ∈ pushOffset offset ++ pushReturnAddress offset,
      written.isStraight = true ∧
        written.target ≠ some addressDestination := by
  intro written member
  rcases List.mem_append.mp member with push | load
  · rcases List.mem_append.mp push with immediate | rest
    · have computed := loadImmediate_computesInto offset .t0 written immediate
      obtain ⟨computation, register, inside, target⟩ :=
        Inst.computesInto_iff.mp computed
      rw [target, List.mem_singleton.mp inside]
      exact ⟨(Bool.and_eq_true_iff.mp computation).1, by decide⟩
    · simp only [List.mem_cons, List.not_mem_nil, or_false] at rest
      rcases rest with rfl | rfl | rfl <;> exact ⟨rfl, by decide⟩
  · rcases List.mem_append.mp load with entry | store
    · split at entry
      · rw [List.mem_singleton.mp entry]
        exact ⟨rfl, (by decide : some Register.t1 ≠ some addressDestination)⟩
      · simp only [List.mem_cons, List.not_mem_nil, or_false] at entry
        rcases entry with rfl | rfl <;> exact ⟨rfl, by decide⟩
    · simp only [List.mem_cons, List.not_mem_nil, or_false] at store
      rcases store with rfl | rfl <;> exact ⟨rfl, by decide⟩

/-- The bytes of the operand that the return address is written over are its
own. -/
def SlotSpares (inst : Instruction) (state : State) : Prop :=
  let address := inst.operandAddress (inst.getOperand 0) state
  let slot := state.get rsp - 8
  ∀ index < 8, ∀ place < 8,
    address + BitVec.ofNat 64 index = slot + BitVec.ofNat 64 place ->
      state.mem (address + BitVec.ofNat 64 index) =
        (inst.nextAddress >>> (8 * place)).setWidth 8

/-- The operand is read behind the push as it was in front of it. -/
theorem entered_load_iff
    {entries : Nat}
    {state : State}
    (situation : Entered inst entries state)
    (isMem : (inst.getOperand 0).isMem = true) :
    let address := inst.operandAddress (inst.getOperand 0) state
    (entered inst entries state).mem.load address 8 =
        state.mem.load address 8 ↔
      SlotSpares inst state := by
  intro address
  let slot := state.get rsp - 8
  let noted := state.mem.store (state.get returnStack) 4 (tableOffset entries)
  have untouched : ∀ index < 8, noted (address + BitVec.ofNat 64 index) =
      state.mem (address + BitVec.ofNat 64 index) := fun index inside =>
    Memory.store_of_outside _ _ (situation.operandApart isMem index inside)
  have stored : ∀ index < 8, ∀ place < 8,
      address + BitVec.ofNat 64 index = slot + BitVec.ofNat 64 place ->
        noted.store slot 8 inst.nextAddress (address + BitVec.ofNat 64 index) =
          (inst.nextAddress >>> (8 * place)).setWidth 8 := by
    intro index _ place inside same
    rw [same]
    exact Memory.store_of_inside _ _ inside (by decide)
  change (noted.store slot 8 inst.nextAddress).load address 8 = _ ↔ _
  rw [Memory.load_eq_iff (by decide)]
  constructor
  · intro same index inside place placed overlap
    rw [← same index inside]
    exact stored index inside place placed overlap
  · intro spares index inside
    by_cases overlap : (address + BitVec.ofNat 64 index - slot).toNat < 8
    · have place : address + BitVec.ofNat 64 index = slot + BitVec.ofNat 64
          (address + BitVec.ofNat 64 index - slot).toNat := by
        rw [BitVec.ofNat_toNat, BitVec.setWidth_eq, add_sub_cancel]
      rw [stored index inside _ overlap place]
      exact (spares index inside _ overlap place).symm
    · rw [Memory.store_of_outside _ _ (Nat.not_lt.mp overlap)]
      exact untouched index inside

/-- A call goes to its target if and only if the operand does not use the
stack pointer, its address is not longer than the address size, and the return
address is not written over it. -/
theorem goesTo_iff
    {runtime : JumpTable.Runtime}
    (away : JumpsAway runtime)
    {env : Environment}
    (permits : env.PermitsEverything)
    {state : State}
    (aligned : TableAligned state)
    (long : inst.LongOperand (inst.getOperand 0))
    {entries : Nat}
    (situation : Entered inst entries state) :
    let op := inst.getOperand 0
    GoesTo inst (JumpTable.dispatch runtime env) (generate entries inst) state
        (entered inst entries state) ↔
      ¬ inst.UsesStackPointer op ∧ (op.isMem = true ->
        inst.AddressFits op state ∧ SlotSpares inst state) := by
  intro op
  let front := pushOffset (tableOffset entries) ++
    pushReturnAddress (tableOffset entries)
  obtain ⟨registers, memory⟩ := push_spec situation env.origin
  have guest : ∀ reg, mapReg reg ∉ pushScratch := by decide
  have straight := push_straight (tableOffset entries)
  have goes := @Instruction.goesTo_iff inst runtime away env permits state
    aligned long front (fun written member => (straight written member).1)
    (entered inst entries state)
    ⟨fun reg => registers _ (guest reg), memory, registers _ (by decide)⟩
    (registers _ (by decide))
    (loadsInto_eq_nil fun visit member => Or.inr
      (straight _ (mem_code_of_mem_straightTrace member)).2)
  have reads := long.accessed_movedStack_iff (Or.inr rfl)
    (fun reg => registers _ (guest reg))
  have code : generate entries inst = front ++ Jcc.generateJump inst := rfl
  rw [code]
  refine goes.trans (reads.trans (and_congr_right fun _ =>
    forall_congr' fun isMem => and_congr_right fun _ => ?_))
  rw [memory]
  exact entered_load_iff situation isMem

end Call

/-! ## All stack instructions -/

namespace Instruction

variable (inst : Instruction)

/-- A push, a pop, a call or a jump with an operand of eight bytes. -/
structure StackInstruction : Prop where
  kind : inst.instructionClass = .push ∨ inst.instructionClass = .pop ∨
    inst.instructionClass = .call ∨ inst.instructionClass = .jmp
  operand : inst.LongOperand (inst.getOperand 0)
  destination : inst.instructionClass = .pop ->
    (inst.getOperand 0).isImm = false

/-- What the instruction does on x86. -/
def StackEffect
    (entries : Nat)
    (env : Environment)
    (code : List Inst)
    (state : State) : Prop :=
  match inst.instructionClass with
  | .push => Push.Pushes inst env code state
  | .pop => Pop.Pops inst env code state
  | .call => inst.GoesTo env code state (Call.entered inst entries state)
  | .jmp => inst.GoesTo env code state state
  | _ => True

/-- The operand is the same where the code reads it. -/
def StackStable (state : State) : Prop :=
  let op := inst.getOperand 0
  match inst.instructionClass with
  | .push => Push.OperandStable inst state
  | .pop => ¬ inst.UsesStackPointer op
  | .call => ¬ inst.UsesStackPointer op ∧ (op.isMem = true ->
      inst.AddressFits op state ∧ Call.SlotSpares inst state)
  | .jmp => op.isMem = true -> inst.AddressFits op state
  | _ => True

variable {inst}

/-- A stack instruction reads its operand in the state of x86 if and only if
the operand is the same where the code reads it. -/
theorem generate_stack_iff
    {runtime : JumpTable.Runtime}
    (away : JumpsAway runtime)
    {env : Environment}
    (permits : env.PermitsEverything)
    (symbols : HostSymbols)
    (stack : inst.StackInstruction)
    {entries : Nat}
    {state : State}
    (aligned : TableAligned state)
    (situation : inst.instructionClass = .call ->
      Call.Entered inst entries state) :
    (∃ code, inst.generate symbols entries = some code ∧
      inst.StackEffect entries (JumpTable.dispatch runtime env) code state) ↔
      inst.StackStable state := by
  have dispatchPermits :
      (JumpTable.dispatch runtime env).PermitsEverything := permits
  have long := stack.operand
  rcases stack.kind with push | pop | call | jmp
  · simp only [generate, push, StackEffect, StackStable, Option.some.injEq,
      exists_eq_left']
    exact Push.generate_iff long dispatchPermits state
  · simp only [generate, pop, StackEffect, StackStable, Option.some.injEq,
      exists_eq_left']
    exact Pop.generate_iff dispatchPermits long (stack.destination pop) state
  · simp only [generate, call, StackEffect, StackStable, Option.some.injEq,
      exists_eq_left']
    exact Call.goesTo_iff away permits aligned long (situation call)
  · simp only [generate, jmp, StackEffect, StackStable, Option.some.injEq,
      exists_eq_left']
    exact jump_goesTo_iff away permits aligned long

/-- `call` of a register -/
def callRegister (register : Fadec.Register) : Instruction :=
  InstructionClass.call.construct
    { type := .callInd
      operands := [.reg .qword register .gpl]
      address := 0x400010
      size := 2 }

theorem callRegister_stackInstruction (register : Fadec.Register) :
    (callRegister register).StackInstruction where
  kind := Or.inr (Or.inr (Or.inl rfl))
  operand := ⟨rfl, rfl, Operand.noConfusion,
    (by decide : Fadec.Segment.none ≠ .fs),
    (by decide : Fadec.Segment.none ≠ .gs)⟩
  destination _ := rfl

/-- The stacks, the target and the call table, which is behind the first
translation of a call. -/
def callState : State :=
  ((({ zeroState with
    mem := zeroState.mem.store 0x3010 8 0x400012 }.set callTableAddress
      0x3000).set returnStack 0x6000).set rsp 0x8000).set rax 0x401000

theorem callRegister_holdsCallTable (register : Fadec.Register) :
    Call.HoldsCallTable
      (Call.emplaceBack [⟨0, 0⟩] (callRegister register)) callState := by
  have next : (callRegister register).nextAddress = 0x400012 := rfl
  rintro (_ | _ | index) entry found
  · obtain rfl := Option.some.inj found
    decide +kernel
  · obtain rfl := Option.some.inj found
    simp only [next]
    decide +kernel
  · cases found

theorem callRegister_entered (register : Fadec.Register) :
    Call.Entered (callRegister register) 1 callState :=
  Call.Entered.of_callTable .start (callRegister_holdsCallTable register)
    (by decide +kernel) fun isMem => absurd isMem (by
      rw [show ((callRegister register).getOperand 0).isMem = false from rfl]
      decide)

theorem generate_stack_iff_callRegister :
    ∃ code, (callRegister 0).generate sampleSymbols 1 = some code ∧
      (callRegister 0).StackEffect 1
        (JumpTable.dispatch (fun _ _ => none) Stub.environment) code
        callState :=
  (generate_stack_iff ⟨fun _ => rfl, fun _ => rfl⟩ (fun _ _ => rfl)
    sampleSymbols (callRegister_stackInstruction 0) (by decide)
    (fun _ => callRegister_entered 0)).mpr
      (show ¬ _ ∧ _ from
        ⟨(by decide : mapRegType 0 .gpl ≠ rsp), fun isMem => by cases isMem⟩)

/-- A call of the stack pointer goes to the place of its return address. -/
theorem callRsp_misses :
    ¬ ∃ code, (callRegister 4).generate sampleSymbols 1 = some code ∧
      (callRegister 4).StackEffect 1
        (JumpTable.dispatch (fun _ _ => none) Stub.environment) code
        callState := by
  rintro ⟨code, generated, goes⟩
  have same : (callRegister 4).generate sampleSymbols 1 =
      some (Call.generate 1 (callRegister 4)) := rfl
  rw [same] at generated
  cases generated
  have stable := (@Call.goesTo_iff (callRegister 4) (fun _ _ => none)
    ⟨fun _ => rfl, fun _ => rfl⟩ Stub.environment (fun _ _ => rfl) callState
    (by decide) (callRegister_stackInstruction 4).operand 1
    (callRegister_entered 4)).mp goes
  exact stable.1 rfl

end Instruction

end Oxtra

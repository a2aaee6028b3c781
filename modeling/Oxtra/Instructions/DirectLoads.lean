import Oxtra.Instruction.Accesses
import Oxtra.Instructions.Generate

/-!
# Loads into registers of the guest

Moves from the memory to a long register use this register as a temporary for
the address.  The address is wrong when the register is one that the rest of
the address still needs.
-/

namespace Oxtra

open RiscV
open Encoding
open Helper
open Fadec (Operand OperandSize)

namespace Instruction

variable (inst : Instruction)

/-! ## Overwritten operands -/

/-- What a temporary has in it when it is written too early. -/
def clobberingValue (op : Operand) (state : State) : Word :=
  if (baseRegister op).isSome ∧ inst.indexRegister.isSome then
    inst.scaledIndex state
  else
    inst.displacement

section Clobbered

variable {op : Operand} {dst temp : Register} (pc : Word) (state : State)

theorem translateDisplacement_overlap
    (dstNonzero : dst ≠ .zero)
    (tempNonzero : temp ≠ .zero)
    (large : inst.smallDisplacement = false) :
    (applyAll pc state (inst.translateDisplacement dst temp temp).1).get
        (inst.translateDisplacement dst temp temp).2 =
      inst.displacement + inst.displacement := by
  have some : inst.displacement ≠ 0 := by
    intro none
    have small : inst.smallDisplacement = true := by
      rw [smallDisplacement, none]
      decide
    rw [small] at large
    cases large
  simp only [translateDisplacement, if_pos some, large, Bool.false_eq_true,
    if_false, if_neg tempNonzero, applyAll_append,
    applyAll_loadImmediate tempNonzero, applyAll_cons, applyAll_nil,
    apply_add, State.set_get_self _ _ dstNonzero,
    State.set_get_self _ _ tempNonzero]

/-- The temporary is added in place of the register that it overwrites. -/
theorem translateSum_clobbered
    (dstNonzero : dst ≠ .zero)
    (tempNonzero : temp ≠ .zero)
    (different : dst ≠ temp)
    (large : inst.smallDisplacement = false)
    (clobbers : inst.Clobbers op temp) :
    (applyAll pc state (inst.translateSum op dst temp).1).get
        (inst.translateSum op dst temp).2 =
      inst.linearAddress op state - state.get temp +
        inst.clobberingValue op state := by
  have index := inst.translateIndex_value pc state dstNonzero tempNonzero
    (baseRegister op).isSome
  unfold Clobbers at clobbers
  simp only [translateSum, applyAll_append]
  cases found : baseRegister op with
  | none =>
      cases foundIndex : inst.indexRegister with
      | none =>
          rw [found, foundIndex] at clobbers
          cases clobbers
      | some register =>
          rw [found, foundIndex] at clobbers
          obtain ⟨-, unscaled, rfl⟩ := clobbers
          simp only [translateIndex, foundIndex, if_pos unscaled,
            translateBase, applyAll_nil,
            inst.translateDisplacement_overlap _ _ dstNonzero tempNonzero
              large]
          simp only [linearAddress, found, registerValue, scaledIndex,
            foundIndex, unscaled, clobberingValue, Option.isSome_none,
            Bool.false_eq_true, false_and, if_false]
          simp
  | some base =>
      cases foundIndex : inst.indexRegister with
      | none =>
          rw [found, foundIndex] at clobbers
          obtain ⟨-, rfl⟩ := clobbers
          simp only [translateIndex, foundIndex, translateBase, ne_eq,
            not_true_eq_false, if_false, applyAll_nil,
            inst.translateDisplacement_overlap _ _ dstNonzero tempNonzero
              large]
          simp only [linearAddress, found, registerValue, scaledIndex,
            foundIndex, clobberingValue, Option.isSome_none,
            Bool.false_eq_true, and_false, if_false]
          simp
      | some register =>
          rw [found, foundIndex] at clobbers
          obtain ⟨scaled, rfl⟩ := clobbers
          rw [found, Option.isSome_some] at index
          have result : (inst.translateIndex true dst (mapReg base)).2 =
              mapReg base := by
            simp only [translateIndex, foundIndex, if_neg scaled, if_true]
          have sum : (translateBase (some base) dst (mapReg base)).2 =
              dst := by
            rw [translateBase, if_pos tempNonzero]
          rw [result] at index
          rw [Option.isSome_some, result,
            inst.translateDisplacement_value _ _ dstNonzero tempNonzero
              (fun _ => by rw [sum]; exact different),
            translateBase_value _ _ dstNonzero, registerValue, index]
          simp only [linearAddress, found, registerValue, clobberingValue,
            Option.isSome_some, foundIndex, and_self, if_true]
          abel

theorem translateMemory_clobbered
    (dstNonzero : dst ≠ .zero)
    (tempNonzero : temp ≠ .zero)
    (different : dst ≠ temp)
    (large : inst.smallDisplacement = false)
    (clobbers : inst.Clobbers op temp) :
    (applyAll pc state (inst.translateMemory op dst temp false).1).get
        (inst.translateMemory op dst temp false).2 =
      inst.truncateAddress (inst.linearAddress op state - state.get temp +
        inst.clobberingValue op state) := by
  have sum := inst.translateSum_clobbered pc state dstNonzero tempNonzero
    different large clobbers
  rw [translateMemory_eq, truncateAddress]
  cases inst.addressSizeQword with
  | true =>
      simp only [not_true_eq_false, if_false, if_true, Bool.false_eq_true,
        false_and]
      exact sum
  | false =>
      simp only [Bool.false_eq_true, not_false_eq_true, if_true, if_false,
        applyAll_append, applyAll_cons, applyAll_nil, apply_slli, apply_srli,
        State.set_get_self _ _ dstNonzero, sum, truncate_eq]

end Clobbered

/-- Two sums have the same low part if and only if the parts in which they
differ have. -/
theorem truncateAddress_exchange (sum old new : Word) :
    inst.truncateAddress (sum - old + new) = inst.truncateAddress sum ↔
      inst.truncateAddress old = inst.truncateAddress new := by
  unfold truncateAddress
  cases inst.addressSizeQword with
  | true =>
      simp only [if_true]
      rw [sub_add_eq_add_sub, sub_eq_iff_eq_add, add_right_inj, eq_comm]
  | false =>
      simp only [Bool.false_eq_true, if_false]
      rw [← BitVec.toNat_inj, ← BitVec.toNat_inj]
      simp only [BitVec.toNat_setWidth, BitVec.toNat_add, BitVec.toNat_sub]
      omega

/-! ## The address of a direct load -/

/-- The load of an operand into a register finds its address: a small
displacement is added to an address of the address size, and a register that
is overwritten before a large one is added had the right value by chance. -/
structure AddressIntact
    (op : Operand)
    (dest : Register)
    (state : State) : Prop where
  short : inst.smallDisplacement = true -> inst.addressSizeQword = false ->
    (inst.linearAddress op state).toNat < 2 ^ 32
  kept : inst.smallDisplacement = false -> inst.Clobbers op dest ->
    inst.truncateAddress (state.get dest) =
      inst.truncateAddress (inst.clobberingValue op state)

/-- The address that is loaded from. -/
def loadedAddress (op : Operand) (dest : Register) (state : State) : Word :=
  inst.segmentBase state +
    if inst.smallDisplacement then
      inst.linearAddress op state
    else
      inst.truncateAddress
        (if inst.Clobbers op dest then
          inst.linearAddress op state - state.get dest +
            inst.clobberingValue op state
        else
          inst.linearAddress op state)

theorem loadedAddress_eq_iff
    (op : Operand)
    (dest : Register)
    (state : State) :
    inst.loadedAddress op dest state = inst.guestAddress op state ↔
      inst.AddressIntact op dest state := by
  have same : ∀ address, inst.segmentBase state + address =
      inst.operandAddress op state + inst.segmentBase state ↔
        address = inst.operandAddress op state := by
    intro address
    rw [add_comm, add_left_inj]
  rw [loadedAddress, guestAddress, same]
  by_cases small : inst.smallDisplacement = true
  · have accessed := inst.accessedAddress_eq_iff op state
    rw [accessedAddress, if_pos small] at accessed
    rw [if_pos small, accessed]
    constructor
    · intro short
      exact ⟨short, fun large => by simp [small] at large⟩
    · exact AddressIntact.short
  · have large : inst.smallDisplacement = false := by simpa using small
    rw [if_neg small, operandAddress]
    by_cases clobbers : inst.Clobbers op dest
    · rw [if_pos clobbers, truncateAddress_exchange]
      constructor
      · intro kept
        exact ⟨fun small => by simp [large] at small, fun _ _ => kept⟩
      · intro intact
        exact intact.kept large clobbers
    · rw [if_neg clobbers]
      simp only [true_iff]
      exact ⟨fun small => by simp [large] at small,
        fun _ again => absurd again clobbers⟩

/-- The base register of the load with the displacement that it adds. -/
theorem readBase_loadedAddress
    {op : Operand}
    {dest temp : Register}
    (destScratch : Scratch dest)
    (tempScratch : Scratch temp)
    (reserved : isGuest temp = false)
    (different : temp ≠ dest)
    (pc : Word)
    (state : State) :
    (applyAll pc state (inst.readBase op dest temp).1).get
          (inst.readBase op dest temp).2 +
        signedImm inst.operationDisplacement =
      inst.loadedAddress op dest state := by
  have free : ∀ base ∈ baseRegister op, mapReg base ≠ temp :=
    fun base _ => ne_of_isGuest (isGuest_mapReg base) reserved
  rw [loadedAddress]
  by_cases small : inst.smallDisplacement = true
  · have reached := inst.address_add state (inst.readBase_value pc state
      destScratch tempScratch different free
      fun large => by simp [small] at large)
    rw [reached, accessedAddress, if_pos small, if_pos small, add_comm]
  · have large : inst.smallDisplacement = false := by simpa using small
    rw [if_neg small]
    by_cases clobbers : inst.Clobbers op dest
    · have none : signedImm inst.operationDisplacement = 0#64 := by
        rw [operationDisplacement, if_neg small]
        decide
      rw [inst.readBase_add pc state destScratch tempScratch different,
        readAddress_eq, if_neg small, inst.translateMemory_clobbered pc state
          tempScratch.1 destScratch.1 different large clobbers,
        if_pos clobbers, none, BitVec.add_zero, add_comm]
    · have reached := inst.address_add state (inst.readBase_value pc state
        destScratch tempScratch different free fun _ => clobbers)
      rw [reached, accessedAddress, if_neg small, if_neg clobbers, add_comm]
      rfl

/-! ## Moves from the memory -/

/-- Some code loads an operand into a register of the guest: it accesses the
effective address in the state in front of it and nothing else, and keeps the
memory and the other registers of the guest. -/
def LoadsOperand
    (env : Environment)
    (code : List Inst)
    (op : Operand)
    (dest : Register)
    (signExtended : Bool)
    (state : State) : Prop :=
  ∃ visited final, env.Traces code state visited (.ended final) ∧
    accessesApart contextAddress visited =
      [.load (inst.guestAddress op state) op.size.bytes] ∧
    final.mem = state.mem ∧
    final.get dest = (operandLoad op.size signExtended).eval state.mem
      (inst.guestAddress op state) ∧
    ∀ register, isGuest register = true -> register ≠ dest ->
      final.get register = state.get register

/-- The code of a direct load, with what follows it. -/
theorem loadsOperand_iff
    {env : Environment}
    (permits : env.PermitsEverything)
    {op : Operand}
    {dest temp : Register}
    (guest : isGuest dest = true)
    (tempScratch : Scratch temp)
    (reserved : isGuest temp = false)
    {signExtended : Bool}
    {rest : List Inst}
    (computes : ComputesInto [dest] rest)
    (keeps : ∀ pc state mem address,
      state.get dest = (operandLoad op.size signExtended).eval mem address ->
        (applyAll pc state rest).get dest = state.get dest)
    (state : State) :
    inst.LoadsOperand env
        ((inst.readFromMemory op dest temp signExtended).1 ++ rest) op dest
        signExtended state ↔
      inst.AddressIntact op dest state := by
  have destScratch : Scratch dest :=
    ⟨ne_of_isGuest guest (by decide), ne_of_isGuest guest (by decide)⟩
  have different : temp ≠ dest := (ne_of_isGuest guest reserved).symm
  have reached := @readBase_loadedAddress inst op dest temp destScratch
    tempScratch reserved different env.origin state
  have straight : ∀ written ∈
      (inst.readFromMemory op dest temp signExtended).1 ++ rest,
        written.isStraight = true := by
    intro written member
    rcases List.mem_append.mp member with read | further
    · exact inst.readFromMemory_straight dest temp signExtended written read
    · exact computes.straight written further
  have runs := Environment.traces_straight straight
    (permits.permitsAll state _)
  have accesses := inst.readFromMemory_accesses env.origin state destScratch
    tempScratch reached signExtended
  rw [← loadedAddress_eq_iff]
  constructor
  · rintro ⟨visited, final, traces, accessed, -, -, -⟩
    obtain ⟨rfl, -⟩ := runs.unique traces
    rw [Environment.straightTrace_append, accessesApart_append, accesses,
      computes.accessesApart, List.append_nil] at accessed
    simpa using accessed
  · intro same
    rw [same] at reached accesses
    have applied := inst.readFromMemory_apply env.origin state reached
      signExtended
    refine ⟨_, _, runs, ?_, ?_, ?_, ?_⟩
    · rw [Environment.straightTrace_append, accessesApart_append, accesses,
        computes.accessesApart, List.append_nil]
    · rw [applyAll_append, computes.mem, applied, State.set_mem,
        inst.readBase_mem]
    · rw [applyAll_append, applied]
      have loaded := State.set_get_self
        (applyAll env.origin state (inst.readBase op dest temp).1)
        ((operandLoad op.size signExtended).eval state.mem
          (inst.guestAddress op state)) destScratch.1
      rw [keeps _ _ _ _ loaded, loaded]
    · intro register isGuest other
      have notTemp : register ≠ temp := ne_of_isGuest isGuest reserved
      rw [applyAll_append, computes.get _ _ (by simp [other]), applied,
        State.set_get_of_ne _ _ other,
        inst.readBase_get _ _ _ _ other notTemp]

/-- The moves that load their operand into a long register. -/
def MovesInto (srcSize size : OperandSize) (signExtended : Bool) : Prop :=
  inst.instructionClass = .mov ∧ srcSize = size ∧ signExtended = false ∨
    inst.instructionClass = .movzx ∧ signExtended = false ∨
      inst.instructionClass = .movsx ∧ signExtended = true

/-- The zero extension of a double word that was loaded as one. -/
theorem truncate_load (mem : Memory) (address : Word) :
    (((operandLoad .dword false).eval mem address).setWidth 32).setWidth 64 =
      (operandLoad .dword false).eval mem address := by
  have bound := mem.loadNat_lt address 4
  have value := mem.load_toNat address (by decide : 4 ≤ 8)
  change ((mem.load address 4).setWidth 32).setWidth 64 = mem.load address 4
  apply BitVec.eq_of_toNat_eq
  simp only [BitVec.toNat_setWidth, value]
  omega

/-- A move loads from the effective address of its operand if and only if its
address is not lost. -/
theorem generate_loads_iff
    {env : Environment}
    (permits : env.PermitsEverything)
    (symbols : HostSymbols)
    (entries : Nat)
    {size srcSize : OperandSize}
    {register : Fadec.Register}
    {base : Option Fadec.Register}
    {signExtended : Bool}
    (long : size = .dword ∨ size = .qword)
    (destination : inst.getOperand 0 = .reg size register .gpl)
    (source : inst.getOperand 1 = .mem srcSize base)
    (moves : inst.MovesInto srcSize size signExtended)
    (state : State) :
    (∃ code, inst.generate symbols entries = some code ∧
      inst.LoadsOperand env code (.mem srcSize base) (mapReg register)
        signExtended state) ↔
      inst.AddressIntact (.mem srcSize base) (mapReg register) state := by
  have guest := isGuest_mapReg register
  have nonzero : mapReg register ≠ .zero := by simp
  have first : inst.firstRegister = mapReg register := by
    rw [firstRegister, destination]
  have plain := fun (temp : Register) (scratch : Scratch temp)
      (reserved : isGuest temp = false) (signExtended : Bool) =>
    @loadsOperand_iff inst env permits (.mem srcSize base) _ temp guest
      scratch reserved signExtended [] ComputesInto.nil
      (fun _ _ _ _ _ => rfl) state
  simp only [List.append_nil] at plain
  rcases moves with ⟨mov, same, rfl⟩ | ⟨movzx, rfl⟩ | ⟨movsx, rfl⟩
  · subst same
    rcases long with rfl | rfl
    · have generated : inst.generate symbols entries =
          some ((inst.readFromMemory (.mem .dword base) (mapReg register) .t1
            false).1 ++ [slli (mapReg register) (mapReg register) 32,
              srli (mapReg register) (mapReg register) 32]) := by
        simp [generate, mov, Mov.generate, destination, source,
          translateOperand, Operand.isImm]
      rw [generated]
      simp only [Option.some.injEq, exists_eq_left']
      refine inst.loadsOperand_iff permits guest (by decide) (by decide)
        ?_ ?_ state
      · exact ComputesInto.cons_iff.mpr
          ⟨Inst.computesInto_of_target rfl rfl (by simp),
            ComputesInto.singleton rfl rfl (by simp)⟩
      · intro pc state mem address loaded
        simp only [applyAll_cons, applyAll_nil, apply_slli, apply_srli,
          State.set_get_self _ _ nonzero, truncate_eq, loaded]
        exact truncate_load mem address
    · have generated : inst.generate symbols entries =
          some (inst.readFromMemory (.mem .qword base) (mapReg register) .t1
            false).1 := by
        simp [generate, mov, Mov.generate, destination, source,
          translateOperand]
      rw [generated]
      simpa using plain .t1 (by decide) (by decide) false
  · have generated : inst.generate symbols entries =
        some (inst.readFromMemory (.mem srcSize base) (mapReg register) .t0
          false).1 := by
      simp [generate, movzx, Movzx.generate, source, first]
    rw [generated]
    simpa using plain .t0 (by decide) (by decide) false
  · have generated : inst.generate symbols entries =
        some (inst.readFromMemory (.mem srcSize base) (mapReg register) .t0
          true).1 := by
      simp [generate, movsx, Movsx.generate, source, first]
    rw [generated]
    simpa using plain .t0 (by decide) (by decide) true

/-- Some addresses in the translator. -/
def sampleSymbols : HostSymbols where
  text _ := 0
  divisionException := 0

/-- `mov rax, [base + displacement]` -/
def movRax (base : Fadec.Register) (displacement : BitVec 64) : Instruction :=
  InstructionClass.mov.construct
    { type := .mov
      operands := [.reg .qword 0 .gpl, .mem .qword (some base)]
      displacement := displacement }

/-- A state of zeros. -/
def zeroState : State where
  regs _ := 0
  mem _ := 0

/-- The base is another register than the destination. -/
theorem generate_loads_iff_movRaxRbx :
    let state : State := { zeroState.set (mapReg 3) 0x4000 with
      mem := zeroState.mem.store 0x5000 8 7 }
    ∃ code, (movRax 3 0x1000).generate sampleSymbols 0 = some code ∧
      (movRax 3 0x1000).LoadsOperand Stub.environment code
        (.mem .qword (some 3)) (mapReg 0) false state :=
  ((movRax 3 0x1000).generate_loads_iff (fun _ _ => rfl) sampleSymbols 0
    (Or.inr rfl) rfl rfl (Or.inl ⟨rfl, rfl, rfl⟩) _).mpr
      ⟨by decide, fun _ clobbers => absurd clobbers (by decide)⟩

/-- The displacement is added to itself instead of to rax. -/
theorem movRaxRax_misses :
    ¬ ∃ code, (movRax 0 0x1000).generate sampleSymbols 0 = some code ∧
      (movRax 0 0x1000).LoadsOperand Stub.environment code
        (.mem .qword (some 0)) (mapReg 0) false zeroState := by
  rintro ⟨code, generated, loads⟩
  have read : code = ((movRax 0 0x1000).readFromMemory
      (.mem .qword (some 0)) (mapReg 0) .t1 false).1 ++ [] := by
    have same : (movRax 0 0x1000).generate sampleSymbols 0 =
        some ((movRax 0 0x1000).readFromMemory (.mem .qword (some 0))
          (mapReg 0) .t1 false).1 := rfl
    rw [same, Option.some.injEq] at generated
    rw [List.append_nil, generated]
  rw [read] at loads
  have intact := ((movRax 0 0x1000).loadsOperand_iff (fun _ _ => rfl)
    (isGuest_mapReg 0) (by decide) (by decide) ComputesInto.nil
    (fun _ _ _ _ _ => rfl) zeroState).mp loads
  have kept := intact.kept (by decide) (by decide)
  revert kept
  decide

end Instruction
end Oxtra

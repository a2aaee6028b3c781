import Oxtra.Instruction.AddressAgreement
import Oxtra.Instruction.FlagEffects
import Oxtra.Instruction.OperandValues

/-!
# Modifications of operands

Code that modifies its destination loads it, computes and writes it.  In
between it stores to nothing but the lazy information, and an operand in the
memory is stored to the address that it has been loaded from.
-/

namespace Oxtra

open RiscV
open Encoding
open Helper
open FlagInfo
open Fadec (Operand OperandSize)

/-! ## Memory beside the lazy information -/

/-- The address is not one of the lazy information. -/
def BesideFields (state : State) (address : Word) : Prop :=
  ¬ (0x200 ≤ (address - state.get contextAddress).toNat ∧
    (address - state.get contextAddress).toNat < Field.limit)

/-- A store depends on the bytes that it writes. -/
theorem store_bytes_congr
    {first second : Memory}
    {address pointer : Word}
    (mem : first pointer = second pointer)
    {bytes : Nat}
    {value other : Word}
    (low : value.setWidth (8 * bytes) = other.setWidth (8 * bytes)) :
    first.store address bytes value pointer =
      second.store address bytes other pointer := by
  simp only [Memory.store]
  split
  · rename_i inside
    apply BitVec.eq_of_getLsbD_eq
    intro index small
    have bit := congrArg
      (BitVec.getLsbD · (8 * (pointer - address).toNat + index)) low
    have below : 8 * (pointer - address).toNat + index < 8 * bytes := by
      omega
    simp only [BitVec.getLsbD_setWidth, below, decide_true,
      Bool.true_and] at bit
    simp only [BitVec.getLsbD_setWidth, BitVec.getLsbD_ushiftRight, bit]
  · exact mem

theorem toNat_mod_eq_iff (size : OperandSize) (first second : Word) :
    first.toNat % 256 ^ size.bytes = second.toNat % 256 ^ size.bytes ↔
      first.setWidth size.bits = second.setWidth size.bits := by
  have power : 256 ^ size.bytes = 2 ^ size.bits := by
    rw [OperandSize.bits, Nat.pow_mul]
  rw [← BitVec.toNat_inj, BitVec.toNat_setWidth, BitVec.toNat_setWidth, power]

/-- A store beside the fields keeps them. -/
theorem fields_store_beside
    {state : State}
    {address : Word}
    {bytes : Nat}
    (beside : ∀ index < bytes,
      BesideFields state (address + BitVec.ofNat 64 index))
    (value : Word) :
    fields (state.store address bytes value) = fields state := by
  funext field
  have bound := field.offset_lt
  have same : field.address (state.store address bytes value) =
      field.address state := by
    rw [Field.address, Field.address, State.store_get]
  rw [fields, fields, Field.read, Field.read, same, State.store_mem]
  apply Memory.load_congr
  intro index inside
  apply Memory.store_of_outside
  by_contra within
  have offset : (field.address state + BitVec.ofNat 64 index -
      state.get contextAddress).toNat = field.offset.toNat + index := by
    rw [Field.address, add_assoc, add_sub_cancel_left, BitVec.toNat_add,
      BitVec.toNat_setWidth, BitVec.toNat_ofNat]
    rw [Field.limit] at bound
    omega
  refine beside _ (by omega :
    (field.address state + BitVec.ofNat 64 index - address).toNat < bytes) ?_
  rw [BitVec.ofNat_toNat, BitVec.setWidth_eq, add_sub_cancel, offset]
  omega

namespace Instruction

/-! ## Modified destinations -/

section Modifies

variable (inst : Instruction)

/-- The accesses of an instruction that reads its destination and writes
it. -/
def modifyingAccesses (value : Word) (state : State) : List Access :=
  match inst.getOperand 0 with
  | .mem size base =>
      let address := inst.guestAddress (.mem size base) state
      [.load address size.bytes,
        .store address size.bytes (value.toNat % 256 ^ size.bytes)]
  | _ => []

/-- The memory after the destination has been written. -/
def modifiedMemory (value : Word) (state : State) : Memory :=
  match inst.getOperand 0 with
  | .mem size base =>
      state.mem.store (inst.guestAddress (.mem size base) state) size.bytes
        value
  | _ => state.mem

/-- The destination is read and written with the low bits of a word, and
nothing else is accessed or changed but the lazy information. -/
structure Modifies
    (value : Word)
    (state : State)
    (accesses : List Access)
    (final : State) : Prop where
  accesses : accesses = inst.modifyingAccesses value state
  registers : ∀ reg, final.get (mapReg reg) =
    writtenRegisters (inst.getOperand 0) value state reg
  memory : ∀ address, BesideFields state address ->
    final.mem address = inst.modifiedMemory value state address

/-- Some code modifies the destination, and ends in some way. -/
def ModifiedBy
    (env : Environment)
    (code : List Inst)
    (value : Word)
    (state : State)
    (ends : State -> Prop) : Prop :=
  ∃ visited final, env.Traces code state visited (.ended final) ∧
    inst.Modifies value state (accessesApart contextAddress visited) final ∧
    ends final

/-- Straight code has one trace and one end. -/
theorem modifiedBy_iff_of_straight
    {env : Environment}
    (permits : env.PermitsEverything)
    {code : List Inst}
    (straight : ∀ written ∈ code, written.isStraight = true)
    (value : Word)
    (state : State)
    (ends : State -> Prop) :
    inst.ModifiedBy env code value state ends ↔
      inst.Modifies value state
        (accessesApart contextAddress
          (Environment.straightTrace env.origin state code))
        (applyAll env.origin state code) ∧
      ends (applyAll env.origin state code) := by
  have traces := @Environment.traces_straight env state code straight
    (permits.permitsAll state code)
  constructor
  · rintro ⟨visited, final, other, modifies, ended⟩
    obtain ⟨rfl, same⟩ := other.unique traces
    cases same
    exact ⟨modifies, ended⟩
  · rintro ⟨modifies, ended⟩
    exact ⟨_, _, traces, modifies, ended⟩

/-- The registers that are written tell the bits of the operand. -/
theorem writtenRegisters_eq_iff
    {op : Operand}
    (isReg : op.isReg = true)
    (valid : op.valid = true)
    (first second : Word)
    (state : State) :
    (∀ reg, writtenRegisters op first state reg =
        writtenRegisters op second state reg) ↔
      first.setWidth op.size.bits = second.setWidth op.size.bits := by
  cases op with
  | reg size register type =>
      have bits := registerAccess_bits valid
      constructor
      · intro same
        obtain ⟨reg, mapped⟩ : ∃ reg,
            mapReg reg = mapRegType register type := by
          cases type with
          | gpl => exact ⟨register, rfl⟩
          | gph => exact ⟨register - 4, rfl⟩
        have written := same reg
        simp only [writtenRegisters, mapped, if_true] at written
        rw [RegisterAccess.merge_eq_iff, bits] at written
        exact written
      · intro same reg
        simp only [writtenRegisters]
        split
        · rw [RegisterAccess.merge_eq_iff, bits]
          exact same
        · rfl
  | _ => cases isReg

end Modifies

/-! ## Destinations in registers -/

/-- Code that writes a destination in a register modifies it if it writes the
right bits. -/
theorem modifies_register_iff
    {inst : Instruction}
    (isReg : (inst.getOperand 0).isReg = true)
    (valid : (inst.getOperand 0).valid = true)
    {temps : List Register}
    {code : List Inst}
    (updates : UpdatesFields temps code)
    (context : contextAddress ∉ temps)
    {pc : Word}
    {state : State}
    {word : Word}
    (registers : ∀ reg, (applyAll pc state code).get (mapReg reg) =
      writtenRegisters (inst.getOperand 0) word state reg)
    (value : Word) :
    inst.Modifies value state
        (accessesApart contextAddress
          (Environment.straightTrace pc state code))
        (applyAll pc state code) ↔
      word.setWidth (inst.getOperand 0).size.bits =
        value.setWidth (inst.getOperand 0).size.bits := by
  have nothing : accessesApart contextAddress
      (Environment.straightTrace pc state code) = [] :=
    accessesApart_eq_nil fun visit member =>
      updates.base_eq _ (mem_code_of_mem_straightTrace member)
  rw [← writtenRegisters_eq_iff isReg valid word value state]
  constructor
  · intro modifies reg
    rw [← registers, modifies.registers]
  · intro same
    refine ⟨?_, fun reg => ?_, fun address beside => ?_⟩
    · rw [nothing, modifyingAccesses]
      cases operand : inst.getOperand 0 with
      | mem size base =>
          rw [operand] at isReg
          cases isReg
      | _ => rfl
    · rw [registers, same]
    · rw [updates.mem (by decide) context pc state beside, modifiedMemory]
      cases operand : inst.getOperand 0 with
      | mem size base =>
          rw [operand] at isReg
          cases isReg
      | _ => rfl

/-- Code behind a modification that changes nothing but the lazy information
makes no difference. -/
theorem modifies_append_iff
    (inst : Instruction)
    {temps : List Register}
    {rest : List Inst}
    (updates : UpdatesFields temps rest)
    (unmapped : ∀ temp ∈ temps, isGuest temp = false)
    (context : contextAddress ∉ temps)
    {pc : Word}
    {state : State}
    {code : List Inst}
    (kept : (applyAll pc state code).get contextAddress =
      state.get contextAddress)
    (value : Word) :
    inst.Modifies value state
        (accessesApart contextAddress
          (Environment.straightTrace pc state (code ++ rest)))
        (applyAll pc state (code ++ rest)) ↔
      inst.Modifies value state
        (accessesApart contextAddress
          (Environment.straightTrace pc state code))
        (applyAll pc state code) := by
  have accesses : accessesApart contextAddress
      (Environment.straightTrace pc state (code ++ rest)) =
        accessesApart contextAddress
          (Environment.straightTrace pc state code) := by
    rw [Environment.straightTrace_append, accessesApart_append,
      accessesApart_eq_nil fun visit member =>
        updates.base_eq _ (mem_code_of_mem_straightTrace member),
      List.append_nil]
  have registers : ∀ reg,
      (applyAll pc state (code ++ rest)).get (mapReg reg) =
        (applyAll pc state code).get (mapReg reg) := by
    intro reg
    rw [applyAll_append]
    apply updates.get
    intro member
    exact ne_of_isGuest (isGuest_mapReg reg) (unmapped _ member) rfl
  have memory : ∀ address, BesideFields state address ->
      (applyAll pc state (code ++ rest)).mem address =
        (applyAll pc state code).mem address := by
    intro address beside
    rw [applyAll_append]
    apply updates.mem (by decide) context
    rw [kept]
    exact beside
  rw [accesses]
  constructor
  · intro modifies
    refine ⟨modifies.accesses, fun reg => ?_, fun address beside => ?_⟩
    · rw [← registers, modifies.registers]
    · rw [← memory address beside, modifies.memory address beside]
  · intro modifies
    refine ⟨modifies.accesses, fun reg => ?_, fun address beside => ?_⟩
    · rw [registers, modifies.registers]
    · rw [memory address beside, modifies.memory address beside]

/-! ## Destinations in the memory -/

/-- The temporaries of code that modifies an operand in the memory: the code
between the load to `t0` and the store leaves the register with the address
alone, and the store leaves that with the result alone. -/
def Suitable
    (temp tempA tempB result : Register)
    (temps : List Register) : Prop :=
  (∀ register ∈ temp :: tempA :: tempB :: result :: temps,
      isGuest register = false ∧ Scratch register) ∧
    temp ≠ .t0 ∧ tempA ≠ tempB ∧ result ≠ tempA ∧ result ≠ tempB ∧
    temp ∉ temps

instance (temp tempA tempB result : Register) (temps : List Register) :
    Decidable (Suitable temp tempA tempB result temps) :=
  inferInstanceAs (Decidable (_ ∧ _))

/-- A load without an extension of the sign. -/
theorem operandLoad_unsigned
    (size : OperandSize)
    (mem : Memory)
    (address : Word) :
    (operandLoad size false).eval mem address =
      mem.load address size.bytes := by
  cases size <;> rfl

/-- The address of a load without an override. -/
theorem NoOverride.readBase_eq
    {inst : Instruction}
    {op : Operand}
    (noOverride : inst.NoOverride)
    (dest temp : Register) :
    inst.readBase op dest temp = inst.readAddress op dest temp := by
  rw [readBase, handleSegmentOverride_eq,
    if_neg (not_not_intro noOverride.segmentOffset), List.append_nil]

section ReadModifyWrite

variable {inst : Instruction} (noOverride : inst.NoOverride)
variable {op : Operand} {temp tempA tempB result : Register}
variable {temps : List Register}
variable (suitable : Suitable temp tempA tempB result temps)
variable {middle : List Inst} (updates : UpdatesFields temps middle)

include suitable

theorem Suitable.not_mem
    {register : Register}
    (kept : isGuest register = true ∨ ¬ Scratch register) :
    register ∉ temp :: temps := by
  intro member
  obtain ⟨notGuest, scratch⟩ := suitable.1 register (by
    rcases List.mem_cons.mp member with rfl | further
    · exact List.mem_cons_self
    · simp [further])
  rcases kept with guest | notScratch
  · rw [notGuest] at guest
    cases guest
  · exact notScratch scratch

include noOverride

/-- The register with the address of the load. -/
theorem readBase_register :
    let address := (inst.readBase op .t0 temp).2
    address = .zero ∨ address ≠ .t0 ∧ address ∉ temps ∧
      address ≠ contextAddress := by
  intro address
  obtain ⟨tempFree, tempScratch⟩ := suitable.1 temp List.mem_cons_self
  rcases inst.readAddress_hasAddress op .t0 temp with zero | guest | known
  · exact Or.inl (by rw [← zero, ← noOverride.readBase_eq])
  · rw [← noOverride.readBase_eq] at guest
    have outside := suitable.not_mem (Or.inl guest)
    exact Or.inr ⟨ne_of_isGuest guest (by decide),
      fun member => outside (List.mem_cons_of_mem _ member),
      ne_of_isGuest guest (by decide)⟩
  · rw [← noOverride.readBase_eq, List.mem_singleton] at known
    simp only [address, known]
    exact Or.inr ⟨suitable.2.1, suitable.2.2.2.2.2, tempScratch.2⟩

/-- The load. -/
theorem readFromMemory_loaded (pc : Word) (state : State) :
    let loaded := applyAll pc state (inst.readFromMemory op .t0 temp false).1
    loaded = (applyAll pc state (inst.readBase op .t0 temp).1).set .t0
        (state.mem.load (inst.accessedAddress op state) op.size.bytes) ∧
      accessesApart contextAddress (Environment.straightTrace pc state
        (inst.readFromMemory op .t0 temp false).1) =
          [.load (inst.accessedAddress op state) op.size.bytes] := by
  obtain ⟨tempFree, tempScratch⟩ := suitable.1 temp List.mem_cons_self
  have reached := inst.address_add state (inst.readBase_value pc state
    (by decide : Scratch .t0) tempScratch suitable.2.1
    (fun base _ => ne_of_isGuest (isGuest_mapReg base) tempFree)
    fun _ => inst.not_clobbers_of_reserved op (by decide))
  rw [noOverride.segmentBase, BitVec.add_zero] at reached
  refine ⟨?_, inst.readFromMemory_accesses pc state (by decide) tempScratch
    reached false⟩
  simp only [inst.readFromMemory_apply pc state reached,
    operandLoad_unsigned]

/-- The store goes to the address of the load. -/
theorem writeBase_reached
    (pc : Word)
    {loaded changed : State}
    (registers : ∀ reg, changed.get (mapReg reg) = loaded.get (mapReg reg))
    {state : State}
    (guests : ∀ reg, loaded.get (mapReg reg) = state.get (mapReg reg))
    (known : (inst.readBase op .t0 temp).2 ≠ .zero ->
      changed.get (inst.readBase op .t0 temp).2 =
        inst.partialAddress op state) :
    let address := (inst.readBase op .t0 temp).2
    (applyAll pc changed (inst.writeBase op tempA tempB address).1).get
          (inst.writeBase op tempA tempB address).2 +
        signedImm inst.operationDisplacement =
      inst.accessedAddress op state := by
  intro address
  have free := suitable.1
  simp only [List.mem_cons, forall_eq_or_imp] at free
  obtain ⟨-, ⟨-, scratchA⟩, ⟨freeB, scratchB⟩, -⟩ := free
  have different := suitable.2.2.1
  by_cases zero : address = .zero
  · rw [zero, noOverride.writeBase_accessed pc changed scratchA scratchB
      different freeB]
    exact inst.accessedAddress_congr
      (fun reg => (registers reg).trans (guests reg)) op
  · have value := @writeBase_known inst op pc changed tempA tempB address
      scratchA scratchB different zero
    rw [noOverride.segmentBase, BitVec.add_zero, known zero] at value
    rw [value]
    exact inst.partialAddress_add op state

/-- The code that modifies an operand in the memory. -/
def modifyMemory
    (inst : Instruction)
    (op : Operand)
    (temp tempA tempB result : Register)
    (middle : List Inst) : List Inst :=
  (inst.readFromMemory op .t0 temp false).1 ++ middle ++
    inst.writeToMemory op result tempA tempB
      (inst.readFromMemory op .t0 temp false).2

omit noOverride suitable in
include updates in
theorem modifyMemory_straight :
    ∀ written ∈ modifyMemory inst op temp tempA tempB result middle,
      written.isStraight = true := by
  intro written member
  rcases List.mem_append.mp member with further | write
  · rcases List.mem_append.mp further with read | computes
    · exact inst.readFromMemory_straight _ _ _ _ read
    · exact updates.straight _ computes
  · exact inst.writeToMemory_straight _ _ _ _ _ write

variable {pc : Word} {state : State}

include updates

/-- The code in between the load and the store. -/
theorem modifyMemory_split :
    ∃ pcMiddle loaded pcWrite,
      (∀ register, register ≠ .t0 -> register ≠ temp ->
        loaded.get register = state.get register) ∧
      loaded.get .t0 =
        state.mem.load (inst.accessedAddress op state) op.size.bytes ∧
      loaded.mem = state.mem ∧
      let changed := applyAll pcMiddle loaded middle
      let write := inst.writeToMemory op result tempA tempB
        (inst.readFromMemory op .t0 temp false).2
      let target := inst.accessedAddress op state
      applyAll pc state (modifyMemory inst op temp tempA tempB result middle) =
          applyAll pcWrite changed write ∧
        accessesApart contextAddress (Environment.straightTrace pc state
            (modifyMemory inst op temp tempA tempB result middle)) =
          [.load target op.size.bytes,
            .store target op.size.bytes
              ((changed.get result).toNat % 256 ^ op.size.bytes)] ∧
        (applyAll pcWrite changed write).mem =
          changed.mem.store target op.size.bytes (changed.get result) ∧
        ∀ register, register ≠ tempA -> register ≠ tempB ->
          (applyAll pcWrite changed write).get register =
            changed.get register := by
  have free := suitable.1
  simp only [List.mem_cons, forall_eq_or_imp] at free
  obtain ⟨⟨tempFree, tempScratch⟩, ⟨-, scratchA⟩, ⟨freeB, scratchB⟩,
    -, -⟩ := free
  obtain ⟨tempOther, different, resultA, resultB, tempKept⟩ := suitable.2
  have nonzero : Register.t0 ≠ .zero := by decide
  let read := (inst.readFromMemory op .t0 temp false).1
  let pcMiddle := pc + BitVec.ofNat 64 (4 * read.length)
  let loaded := applyAll pc state read
  let changed := applyAll pcMiddle loaded middle
  let pcWrite := pc + BitVec.ofNat 64 (4 * (read ++ middle).length)
  obtain ⟨loads, readAccesses⟩ :=
    @readFromMemory_loaded inst noOverride op temp tempA tempB result temps
      suitable pc state
  have others : ∀ register, register ≠ .t0 -> register ≠ temp ->
      loaded.get register = state.get register := by
    intro register notLoaded notTemp
    rw [show loaded = _ from loads, State.set_get_of_ne _ _ notLoaded,
      inst.readBase_get _ _ _ _ notLoaded notTemp]
  have guestOthers : ∀ reg,
      loaded.get (mapReg reg) = state.get (mapReg reg) := fun reg =>
    others _ (ne_of_isGuest (isGuest_mapReg reg) (by decide))
      (ne_of_isGuest (isGuest_mapReg reg) tempFree)
  have guests : ∀ reg, changed.get (mapReg reg) = loaded.get (mapReg reg) :=
    fun reg => updates.get _ _ fun member =>
      suitable.not_mem (Or.inl (isGuest_mapReg reg))
        (List.mem_cons_of_mem _ member)
  have known : (inst.readBase op .t0 temp).2 ≠ .zero ->
      changed.get (inst.readBase op .t0 temp).2 =
        inst.partialAddress op state := by
    intro notZero
    obtain zero | ⟨notLoaded, kept, -⟩ :=
      @readBase_register inst noOverride op temp tempA tempB result temps
        suitable
    · exact absurd zero notZero
    · have value := inst.readBase_value pc state
        (by decide : Scratch .t0) tempScratch tempOther
        (fun base (_ : base ∈ baseRegister op) =>
          ne_of_isGuest (isGuest_mapReg base) tempFree)
        fun _ => inst.not_clobbers_of_reserved op (by decide)
      rw [noOverride.segmentBase, BitVec.add_zero] at value
      rw [updates.get _ _ kept, show loaded = _ from loads,
        State.set_get_of_ne _ _ notLoaded, value]
  have reached := writeBase_reached noOverride suitable pcWrite guests
    guestOthers known
  have visible : (inst.readBase op .t0 temp).2 ≠ contextAddress := by
    obtain zero | ⟨-, -, visible⟩ :=
      @readBase_register inst noOverride op temp tempA tempB result temps
        suitable
    · rw [zero]
      decide
    · exact visible
  have written := @writeToMemory_apply inst op pcWrite changed tempA tempB
    result (inst.readBase op .t0 temp).2 _ reached
  have value := @writeBase_get inst op pcWrite changed tempA tempB
    (inst.readBase op .t0 temp).2
  have stored := inst.writeToMemory_accesses pcWrite changed scratchA scratchB
    visible resultA resultB reached
  have computes : accessesApart contextAddress
      (Environment.straightTrace pcMiddle loaded middle) = [] :=
    accessesApart_eq_nil fun visit member =>
      updates.base_eq _ (mem_code_of_mem_straightTrace member)
  refine ⟨pcMiddle, loaded, pcWrite, others, ?_, ?_, ?_, ?_, ?_, ?_⟩
  · rw [show loaded = _ from loads, State.set_get_self _ _ nonzero]
  · rw [show loaded = _ from loads, State.set_mem, inst.readBase_mem]
  · rw [modifyMemory, applyAll_append, applyAll_append]
  · rw [modifyMemory, Environment.straightTrace_append,
      Environment.straightTrace_append, accessesApart_append,
      accessesApart_append, readAccesses, applyAll_append]
    exact congrArg₂ (fun first second => [_] ++ first ++ second) computes
      stored
  · refine (congrArg State.mem written).trans ?_
    rw [State.store_mem, inst.writeBase_mem, value resultA resultB]
  · intro register notA notB
    refine (congrArg (State.get · register) written).trans ?_
    rw [State.store_get, value notA notB]

/-- Everything but the temporaries is kept. -/
theorem modifyMemory_get
    {register : Register}
    (outside : register ∉ .t0 :: temp :: tempA :: tempB :: temps) :
    (applyAll pc state
        (modifyMemory inst op temp tempA tempB result middle)).get register =
      state.get register := by
  obtain ⟨pcMiddle, loaded, pcWrite, others, -, -, code, -, -, kept⟩ :=
    @modifyMemory_split inst noOverride op temp tempA tempB result temps
      suitable middle updates pc state
  simp only [List.mem_cons, not_or] at outside
  rw [code, kept _ outside.2.2.1 outside.2.2.2.1,
    updates.get _ _ outside.2.2.2.2, others _ outside.1 outside.2.1]

/-- The lazy information is that of the code in between. -/
theorem modifyMemory_fields
    {contents : (Field -> Word) -> Field -> Word}
    (changes : ∀ pc before, fields (applyAll pc before middle) =
      contents (fields before))
    (beside : ∀ index < op.size.bytes, BesideFields state
      (inst.accessedAddress op state + BitVec.ofNat 64 index)) :
    fields (applyAll pc state
        (modifyMemory inst op temp tempA tempB result middle)) =
      contents (fields state) := by
  obtain ⟨pcMiddle, loaded, pcWrite, others, -, mem, code, -, stored, kept⟩ :=
    @modifyMemory_split inst noOverride op temp tempA tempB result temps
      suitable middle updates pc state
  have scratch : ∀ register ∈ [temp, tempA, tempB], contextAddress ≠ register :=
    fun register member => (suitable.1 register (by
      simp only [List.mem_cons, List.not_mem_nil, or_false] at member ⊢
      tauto)).2.2.symm
  have contextMiddle : contextAddress ∉ temps := fun member =>
    suitable.not_mem (Or.inr fun scratch => scratch.2 rfl)
      (List.mem_cons_of_mem _ member)
  have loadedContext : loaded.get contextAddress = state.get contextAddress :=
    others _ (by decide) (scratch temp (by simp))
  let changed := applyAll pcMiddle loaded middle
  have changedContext : changed.get contextAddress =
      state.get contextAddress :=
    (updates.get _ _ contextMiddle).trans loadedContext
  have besideChanged : ∀ index < op.size.bytes, BesideFields changed
      (inst.accessedAddress op state + BitVec.ofNat 64 index) := by
    simpa only [BesideFields, changedContext] using beside
  have final := @fields_congr _ (changed.store
      (inst.accessedAddress op state) op.size.bytes (changed.get result))
    (code ▸ stored) (by
      rw [code, kept _ (scratch tempA (by simp)) (scratch tempB (by simp)),
        State.store_get])
  rw [final, fields_store_beside besideChanged, changes,
    fields_congr mem loadedContext]

section Modifies

variable {base : Option Fadec.Register} {size : OperandSize}
variable (destination : inst.getOperand 0 = .mem size base)

include destination

/-- The code modifies an operand in the memory if the address fits and the
right bits are computed from the operand. -/
theorem modifies_memory_iff
    {bits : Word -> BitVec size.bits}
    (computes : ∀ pc before,
      (∀ reg, before.get (mapReg reg) = state.get (mapReg reg)) ->
        ((applyAll pc before middle).get result).setWidth size.bits =
          bits (before.get .t0))
    (value : Word) :
    let code := modifyMemory inst (inst.getOperand 0) temp tempA tempB result
      middle
    inst.Modifies value state
        (accessesApart contextAddress
          (Environment.straightTrace pc state code))
        (applyAll pc state code) ↔
      inst.AddressFits (inst.getOperand 0) state ∧
        bits (state.mem.load (inst.guestAddress (inst.getOperand 0) state)
            size.bytes) =
          value.setWidth size.bits := by
  intro code
  obtain ⟨pcMiddle, loaded, pcWrite, others, operand, mem, whole, accesses,
    stored, kept⟩ :=
    @modifyMemory_split inst noOverride (inst.getOperand 0) temp tempA tempB
      result temps suitable middle updates pc state
  have tempFree := (suitable.1 temp List.mem_cons_self).1
  have guestOthers : ∀ reg,
      loaded.get (mapReg reg) = state.get (mapReg reg) := fun reg =>
    others _ (ne_of_isGuest (isGuest_mapReg reg) (by decide))
      (ne_of_isGuest (isGuest_mapReg reg) tempFree)
  have registers : ∀ reg, (applyAll pc state code).get (mapReg reg) =
      state.get (mapReg reg) := by
    intro reg
    have free := suitable.1
    simp only [List.mem_cons, forall_eq_or_imp] at free
    apply modifyMemory_get noOverride suitable updates
    simp only [List.mem_cons, not_or]
    exact ⟨ne_of_isGuest (isGuest_mapReg reg) (by decide),
      ne_of_isGuest (isGuest_mapReg reg) tempFree,
      ne_of_isGuest (isGuest_mapReg reg) free.2.1.1,
      ne_of_isGuest (isGuest_mapReg reg) free.2.2.1.1,
      fun member => suitable.not_mem (Or.inl (isGuest_mapReg reg))
        (List.mem_cons_of_mem _ member)⟩
  have size_eq : (inst.getOperand 0).size = size := by
    rw [destination]
    rfl
  rw [size_eq] at accesses stored operand
  have computed := computes pcMiddle loaded guestOthers
  rw [operand] at computed
  constructor
  · intro modifies
    have same := accesses.symm.trans modifies.accesses
    rw [modifyingAccesses, destination] at same
    simp only [List.cons.injEq, Access.load.injEq, Access.store.injEq,
      and_true, true_and] at same
    obtain ⟨reached, -, low⟩ := same
    rw [← destination] at reached
    rw [noOverride.guestAddress] at reached
    refine ⟨(inst.accessedAddress_eq_iff _ state).mp reached, ?_⟩
    rw [noOverride.guestAddress, ← reached, ← computed]
    exact (toNat_mod_eq_iff size _ _).mp low
  · rintro ⟨fits, right⟩
    have reached := (inst.accessedAddress_eq_iff _ state).mpr fits
    rw [noOverride.guestAddress, ← reached, ← computed] at right
    rw [reached, ← noOverride.guestAddress] at accesses stored
    refine ⟨?_, fun reg => ?_, fun address beside => ?_⟩
    · rw [accesses, (toNat_mod_eq_iff size _ _).mpr right, modifyingAccesses,
        destination]
    · rw [registers, destination]
      rfl
    · have context : contextAddress ∉ temps := fun member =>
        suitable.not_mem (Or.inr fun scratch => scratch.2 rfl)
          (List.mem_cons_of_mem _ member)
      have loadedContext : loaded.get contextAddress =
          state.get contextAddress :=
        others _ (by decide) (suitable.1 temp List.mem_cons_self).2.2.symm
      have besideLoaded : BesideFields loaded address := by
        rw [BesideFields, loadedContext]
        exact beside
      have changed := updates.mem (by decide) context pcMiddle loaded
        besideLoaded
      rw [mem] at changed
      rw [whole, stored, modifiedMemory, destination]
      exact store_bytes_congr changed right

end Modifies

end ReadModifyWrite

end Instruction
end Oxtra

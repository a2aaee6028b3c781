import Oxtra.Instruction.ExtendedOperands
import Oxtra.Instruction.Modifications
import Oxtra.Instructions.Arithmetic
import Oxtra.Instructions.DirectLoads
import Oxtra.Instructions.Execution

/-!
# Products

The factors are loaded as whole words, and the product is written to one
register or, in two halves, to `rax` and `rdx`.  The first factor of a short
product in two halves is in the register that the address of the second one is
computed in.
-/

namespace Oxtra

open RiscV
open Encoding
open Helper
open Instruction
open TwosComplement
open Fadec (Operand OperandSize)

namespace Instruction

/-! ## Operands in other states -/

section Congruence

variable {inst : Instruction} {first second : State}
variable (same : ∀ reg, first.get (mapReg reg) = second.get (mapReg reg))

include same

theorem addressFits_congr (op : Operand) :
    inst.AddressFits op first ↔ inst.AddressFits op second := by
  rw [AddressFits, AddressFits, inst.linearAddress_congr same]

/-- An operand depends on the registers of the guest and on the memory. -/
theorem NoOverride.operandBits_congr
    (noOverride : inst.NoOverride)
    (memory : first.mem = second.mem)
    (op : Operand)
    (size : OperandSize) :
    inst.operandBits op size first = inst.operandBits op size second := by
  have value : inst.operandValue op first = inst.operandValue op second := by
    cases op with
    | none => rfl
    | imm _ => rfl
    | reg _ register type =>
        have mapped : first.get (mapRegType register type) =
            second.get (mapRegType register type) := by
          cases type with
          | gpl => exact same register
          | gph => exact same (register - 4)
        simp only [operandValue, mapped]
    | mem _ base =>
        simp only [operandValue, noOverride.guestAddress, memory,
          inst.operandAddress_congr same]
  rw [operandBits, operandBits, value]

end Congruence

/-- The register for the address of a load. -/
theorem NoOverride.readBase_getB
    {inst : Instruction}
    {op : Operand}
    (noOverride : inst.NoOverride)
    {dest temp : Register}
    (destScratch : Scratch dest)
    (tempScratch : Scratch temp)
    (different : temp ≠ dest)
    (destFree : isGuest dest = false)
    (tempFree : isGuest temp = false)
    (pc : Word)
    (state : State) :
    (applyAll pc state (inst.readBase op dest temp).1).get temp =
      if inst.computesAddress op then
        inst.partialAddress op state
      else
        state.get temp := by
  have value := inst.readAddress_value pc state destScratch.1 tempScratch.1
    different (fun base (_ : base ∈ baseRegister op) =>
      ne_of_isGuest (isGuest_mapReg base) tempFree)
    fun _ => inst.not_clobbers_of_reserved op destFree
  have code := inst.readAddress_eq op dest temp
  rw [noOverride.readBase_eq]
  by_cases small : inst.smallDisplacement = true
  · rw [if_pos small] at code
    rcases inst.simpleAddress_cases small op temp temp with
      ⟨computes, result⟩ | ⟨known, nothing⟩
    · rw [if_pos computes, ← value, code, result]
    · rw [if_neg (by simp [known]), code, nothing, applyAll_nil]
  · have large : inst.smallDisplacement = false := by simpa using small
    have computes : inst.computesAddress op = true := by
      simp [computesAddress, large]
    rw [if_neg small] at code
    rw [if_pos computes, ← value, code,
      inst.translateMemory_hasAddress op temp dest large]

/-- The register for the address behind the load of an operand. -/
theorem NoOverride.translateExtended_getB
    {inst : Instruction}
    {op : Operand}
    (noOverride : inst.NoOverride)
    {tempA tempB : Register}
    (scratchA : Scratch tempA)
    (scratchB : Scratch tempB)
    (freeA : isGuest tempA = false)
    (freeB : isGuest tempB = false)
    (different : tempA ≠ tempB)
    (modifiable signed : Bool)
    (pc : Word)
    (state : State) :
    (applyAll pc state (inst.translateExtended op tempA tempB modifiable
        signed).code).get tempB =
      if op.isMem = true ∧ inst.computesAddress op = true then
        inst.partialAddress op state
      else
        state.get tempB := by
  by_cases isMem : op.isMem = true
  · cases op with
    | mem size base =>
        have reached := @readBase_accessed inst (.mem size base) tempA tempB
          scratchA scratchB freeA freeB different pc state
        have applied := inst.readFromMemory_apply pc state reached signed
        have address := @NoOverride.readBase_getB inst (.mem size base)
          noOverride tempA tempB scratchA scratchB different.symm freeA freeB pc
          state
        simp only [translateExtended, translateOperand, applied,
          State.set_get_of_ne _ _ different.symm, address, isMem, true_and]
    | _ => cases isMem
  · have computes := inst.translateOperand_computesInto
      (by simpa using isMem) tempA tempB modifiable true signed false
    rw [if_neg fun both => isMem both.1]
    exact computes.get pc state (by simpa using different.symm)

/-- An operand that is loaded behind code that computes something. -/
structure LoadedBehind
    (inst : Instruction)
    (op : Operand)
    (code : List Inst)
    (temp : Register)
    (signed : Bool)
    (pc : Word)
    (state middle loaded : State) : Prop where
  others : ∀ register, register ≠ temp -> register ≠ .t4 ->
    loaded.get register = middle.get register
  address : loaded.get .t4 =
    if op.isMem = true ∧ inst.computesAddress op = true then
      inst.partialAddress op state
    else
      middle.get .t4
  accesses : accessesApart contextAddress
      (Environment.straightTrace pc state
        (code ++ (inst.translateExtended op temp .t4 false signed).code)) =
      inst.loadAccesses op state ↔
    (op.isMem = true -> inst.AddressFits op state)
  value : (op.isMem = true -> inst.AddressFits op state) ->
    loaded.get (inst.translateExtended op temp .t4 false signed).value =
      extend signed (inst.operandBits op op.size state) 64

theorem NoOverride.loadedBehind
    {inst : Instruction}
    (noOverride : inst.NoOverride)
    {op : Operand}
    (rm : op.isRm = true)
    (valid : op.valid = true)
    {code : List Inst}
    {temps : List Register}
    (computes : ComputesInto temps code)
    (guestFree : ∀ register ∈ temps, isGuest register = false)
    {temp : Register}
    (scratch : Scratch temp)
    (free : isGuest temp = false)
    (different : temp ≠ .t4)
    (signed : Bool)
    (pc : Word)
    (state : State) :
    inst.LoadedBehind op code temp signed pc state (applyAll pc state code)
      (applyAll pc state
        (code ++ (inst.translateExtended op temp .t4 false signed).code)) := by
  have located : op.isReg = true ∨ op.isMem = true := by
    simpa [Operand.isRm] using rm
  let middle := applyAll pc state code
  have guest : ∀ reg, middle.get (mapReg reg) = state.get (mapReg reg) := by
    intro reg
    apply computes.get
    intro member
    have notGuest := guestFree _ member
    rw [isGuest_mapReg] at notGuest
    cases notGuest
  have memory : middle.mem = state.mem := computes.mem _ _
  have scratchB : Scratch .t4 := by decide
  have freeB : isGuest .t4 = false := by decide
  let further := pc + BitVec.ofNat 64 (4 * code.length)
  have fits := @addressFits_congr inst _ _ guest op
  have sameAccesses : inst.loadAccesses op middle =
      inst.loadAccesses op state := by
    cases op with
    | mem size base =>
        simp only [loadAccesses, noOverride.guestAddress,
          inst.operandAddress_congr guest]
    | _ => rfl
  constructor
  · intro register notTemp notB
    rw [applyAll_append]
    exact translateExtended_get scratch scratchB free freeB different false
      signed further middle notTemp notB
  · rw [applyAll_append, ← inst.partialAddress_congr guest]
    exact noOverride.translateExtended_getB scratch scratchB free freeB
      different false signed further middle
  · have iff := @translateExtended_accesses_iff inst op temp .t4 scratch
      scratchB free freeB different false signed further middle
    rw [fits, sameAccesses] at iff
    rw [Environment.straightTrace_append, accessesApart_append,
      computes.accessesApart, List.nil_append]
    exact iff
  · intro addressFits
    rw [applyAll_append,
      ← noOverride.operandBits_congr guest memory op op.size]
    exact translateExtended_value scratch scratchB free freeB different false
      signed further middle valid located fun isMem =>
        fits.mpr (addressFits isMem)

end Instruction

namespace Mul

/-! ## Factors -/

section Factors

variable (inst : Instruction) (state : State)

def isSigned : Bool := inst.type != .mul

/-- The product has an upper half. -/
def hasUpper : Bool := inst.type == .mul || inst.type == .imul

/-- The factor that may be in the memory. -/
def source : Operand :=
  match inst.type with
  | .imul2 | .imul3 => inst.getOperand 1
  | _ => inst.getOperand 0

/-- The first factor on x86. -/
def firstFactor : BitVec inst.destinationSize.bits :=
  match inst.type with
  | .imul2 => inst.operandBits (inst.getOperand 0) inst.destinationSize state
  | .imul3 => inst.operandBits (inst.getOperand 1) inst.destinationSize state
  | _ => (state.get rax).setWidth inst.destinationSize.bits

/-- The second factor on x86. -/
def secondFactor : BitVec inst.destinationSize.bits :=
  match inst.type with
  | .imul2 => inst.operandBits (inst.getOperand 1) inst.destinationSize state
  | .imul3 => inst.operandBits (inst.getOperand 2) inst.destinationSize state
  | _ => inst.operandBits (inst.getOperand 0) inst.destinationSize state

/-- The operands of a multiplication on x86, without an override. -/
structure Multiplication : Prop where
  multiplication : inst.instructionClass = .mul
  type : inst.type = .mul ∨ inst.type = .imul ∨ inst.type = .imul2 ∨
    inst.type = .imul3
  noOverride : inst.NoOverride
  rm : (source inst).isRm = true
  valid : (source inst).valid = true
  size : (source inst).size = inst.destinationSize
  destination : hasUpper inst = false ->
    inst.destinationSize ≠ .byte ∧
      ∃ register, inst.getOperand 0 = .reg inst.destinationSize register .gpl
  immediate : inst.type = .imul3 -> (inst.getOperand 2).isImm = true

/-- The first factor is lost to the address of the second one. -/
def LosesFirst : Prop :=
  hasUpper inst = true ∧ inst.destinationSize ≠ .qword ∧
    (source inst).isMem = true ∧ inst.computesAddress (source inst) = true

instance : Decidable (LosesFirst inst) :=
  inferInstanceAs (Decidable (_ ∧ _))

/-- The code that loads the factors. -/
def loadFactors : List Inst :=
  (sources inst).1.code ++ (sources inst).2.code

/-- What the registers of the factors hold. -/
structure Loaded (pc : Word) (loaded : State) : Prop where
  guest : ∀ reg, loaded.get (mapReg reg) = state.get (mapReg reg)
  accesses : accessesApart contextAddress
      (Environment.straightTrace pc state (loadFactors inst)) =
      inst.loadAccesses (source inst) state ↔
    ((source inst).isMem = true -> inst.AddressFits (source inst) state)
  places : inst.destinationSize = .qword ->
    (sources inst).1.value ≠ .t4 ∧ (sources inst).2.value ≠ .t4
  double : hasUpper inst = true ->
    ((source inst).isMem = true -> inst.AddressFits (source inst) state) ->
    loaded.get (sources inst).1.value =
        (if LosesFirst inst then
          inst.partialAddress (source inst) state
        else
          extend (isSigned inst) (firstFactor inst state) 64) ∧
      loaded.get (sources inst).2.value =
        extend (isSigned inst) (secondFactor inst state) 64
  single : hasUpper inst = false ->
    ((source inst).isMem = true -> inst.AddressFits (source inst) state) ->
    (loaded.get (sources inst).1.value).setWidth inst.destinationSize.bits =
        firstFactor inst state ∧
      (loaded.get (sources inst).2.value).setWidth inst.destinationSize.bits =
        secondFactor inst state

end Factors

section Load

variable {inst : Instruction} (form : Multiplication inst)
variable (pc : Word) (state : State)

omit form in
theorem type_one (one : hasUpper inst = true) :
    inst.type = .mul ∨ inst.type = .imul := by
  simpa [hasUpper] using one

/-- The factors of a multiplication with `rax`. -/
theorem sources_one (one : hasUpper inst = true) :
    let first := loadFromRegister rax
      (RegisterAccess.ofSize inst.destinationSize) .t4 false true
      (isSigned inst)
    sources inst = ({ code := first.1, value := first.2 },
      inst.translateExtended (source inst) .t2 .t4 false (isSigned inst)) := by
  rcases type_one one with type | type <;>
    simp only [sources, isSigned, source, type] <;> rfl

theorem firstFactor_one (one : hasUpper inst = true) :
    firstFactor inst state =
      (state.get rax).setWidth inst.destinationSize.bits := by
  rcases type_one one with type | type <;> simp only [firstFactor, type]

theorem secondFactor_one (one : hasUpper inst = true) :
    secondFactor inst state =
      inst.operandBits (source inst) inst.destinationSize state := by
  rcases type_one one with type | type <;>
    simp only [secondFactor, source, type]

include form

/-- The factor that may be in the memory has the size of the product. -/
theorem source_bits (signed : Bool) :
    extend signed (inst.operandBits (source inst) (source inst).size state) 64 =
      extend signed
        (inst.operandBits (source inst) inst.destinationSize state) 64 := by
  rw [form.size]

theorem Multiplication.source_ne : source inst ≠ .none := by
  intro none
  have rm := form.rm
  rw [none] at rm
  cases rm

omit form in
/-- Where a factor is loaded to. -/
theorem factor_place
    {op : Operand}
    (valued : op ≠ .none)
    {temp : Register}
    (different : temp ≠ .t4)
    (signed : Bool) :
    (inst.translateExtended op temp .t4 false signed).value ≠ .t4 := by
  rcases translateExtended_register false signed valued with own | guest
  · exact own ▸ different
  · exact ne_of_isGuest guest (by decide)

omit form in
/-- The low bits of an operand that has been extended. -/
theorem setWidth_of_extend
    {op : Operand}
    {size : OperandSize}
    {signed : Bool}
    {word : Word}
    (sameSize : op.size = size)
    (extended : word =
      extend signed (inst.operandBits op op.size state) 64) :
    word.setWidth size.bits = inst.operandBits op size state := by
  subst sameSize
  rw [extended, setWidth_extend _ _ op.size.bits_le]

/-- One operand is multiplied with `rax`. -/
theorem loaded_one (one : hasUpper inst = true) :
    Loaded inst state pc (applyAll pc state (loadFactors inst)) := by
  let signed := isSigned inst
  let size := inst.destinationSize
  let first := loadFromRegister rax (RegisterAccess.ofSize size) .t4 false true
    signed
  have same := sources_one one
  have computes : ComputesInto [.t4] first.1 :=
    loadFromRegister_computesInto _ _ _ _
  have behind := @NoOverride.loadedBehind inst form.noOverride (source inst)
    form.rm form.valid first.1 [.t4] computes (by decide) .t2 (by decide)
    (by decide) (by decide) signed pc state
  have code : loadFactors inst =
      first.1 ++ (inst.translateExtended (source inst) .t2 .t4 false
        signed).code := by
    rw [loadFactors, same]
  have firstValue := @loadFromRegister_full rax .t4 (by decide)
    (RegisterAccess.ofSize size) false signed pc state
  simp only [RegisterAccess.setWidth_part (RegisterAccess.ofSize_ne_hbyte size)] at firstValue
  rw [ofSize_bits, ← firstFactor_one state one] at firstValue
  have wholeFirst : size = .qword -> first.2 = rax := by
    intro qword
    simp [first, loadFromRegister, qword, RegisterAccess.ofSize]
  have shortFirst : size ≠ .qword -> first.2 = .t4 := by
    intro short
    cases found : size with
    | qword => exact absurd found short
    | _ => simp [first, loadFromRegister, found, RegisterAccess.ofSize]
  rw [code]
  refine ⟨fun reg => ?_, ?_, fun qword => ?_, fun _ fits => ?_, fun two => ?_⟩
  · rw [behind.others _ (ne_of_isGuest (isGuest_mapReg reg) (by decide))
      (ne_of_isGuest (isGuest_mapReg reg) (by decide))]
    exact computes.get _ _ (by simp)
  · rw [code]
    exact behind.accesses
  · rw [same]
    constructor
    · rw [show first.2 = rax from wholeFirst qword]
      exact (by decide : rax ≠ .t4)
    · exact factor_place form.source_ne (by decide) signed
  · rw [same]
    constructor
    · by_cases qword : size = .qword
      · have keeps : ¬ LosesFirst inst := fun loses => loses.2.1 qword
        have result := wholeFirst qword
        rw [show first.2 = rax from result, if_neg keeps, ← firstValue,
          show first.2 = rax from result]
        exact behind.others rax (by decide) (by decide)
      · have result := shortFirst qword
        have loses : LosesFirst inst ↔ (source inst).isMem = true ∧
            inst.computesAddress (source inst) = true := by
          simp [LosesFirst, one, show inst.destinationSize ≠ _ from qword]
        rw [show first.2 = .t4 from result] at firstValue ⊢
        simp only [loses]
        rw [behind.address, firstValue]
    · rw [secondFactor_one state one, ← source_bits form]
      exact behind.value fits
  · rw [one] at two
    cases two

/-- The destination is multiplied with an operand. -/
theorem loaded_two (two : inst.type = .imul2) :
    Loaded inst state pc (applyAll pc state (loadFactors inst)) := by
  have notUpper : hasUpper inst = false := by simp [hasUpper, two]
  obtain ⟨register, destination⟩ := (form.destination notUpper).2
  have same : sources inst =
      (inst.translateExtended (inst.getOperand 0) .t1 .t4 false true,
        inst.translateExtended (source inst) .t2 .t4 false true) := by
    simp only [sources, source, two]
    rfl
  let first := inst.translateExtended (inst.getOperand 0) .t1 .t4 false true
  have isReg : (inst.getOperand 0).isReg = true := by
    rw [destination]
    rfl
  have computes : ComputesInto [.t1] first.code :=
    inst.translateOperand_computesInto (not_isMem (Or.inl isReg)) _ _ _ _ _ _
  have behind := @NoOverride.loadedBehind inst form.noOverride (source inst)
    form.rm form.valid first.code [.t1] computes (by decide) .t2 (by decide)
    (by decide) (by decide) true pc state
  have code : loadFactors inst =
      first.code ++ (inst.translateExtended (source inst) .t2 .t4 false
        true).code := by
    rw [loadFactors, same]
  have firstPlace := @translateExtended_register inst (inst.getOperand 0) .t1
    .t4 false true (by simp [destination])
  have firstKept : first.value ≠ .t2 ∧ first.value ≠ .t4 := by
    rcases firstPlace with own | guest
    · rw [show first.value = .t1 from own]
      exact ⟨by decide, by decide⟩
    · exact ⟨ne_of_isGuest guest (by decide), ne_of_isGuest guest (by decide)⟩
  have firstValue := @translateExtended_value inst (inst.getOperand 0) .t1 .t4
    (by decide) (by decide) (by decide) (by decide) (by decide) false true pc
    state (by rw [destination]; rfl) (Or.inl isReg) (by simp [destination, Operand.isMem])
  rw [code]
  refine ⟨fun reg => ?_, ?_, fun _ => ?_, fun one => ?_, fun _ fits => ?_⟩
  · rw [behind.others _ (ne_of_isGuest (isGuest_mapReg reg) (by decide))
      (ne_of_isGuest (isGuest_mapReg reg) (by decide))]
    exact computes.get _ _ (by simp)
  · rw [code]
    exact behind.accesses
  · rw [same]
    exact ⟨firstKept.2, factor_place form.source_ne (by decide) true⟩
  · rw [one] at notUpper
    cases notUpper
  · rw [same]
    constructor
    · rw [show firstFactor inst state = inst.operandBits (inst.getOperand 0)
        inst.destinationSize state by simp only [firstFactor, two]]
      refine @setWidth_of_extend inst state _ _ true _ rfl ?_
      exact (behind.others _ firstKept.1 firstKept.2).trans firstValue
    · rw [show secondFactor inst state = inst.operandBits (source inst)
        inst.destinationSize state by simp only [secondFactor, source, two]]
      exact setWidth_of_extend state form.size (behind.value fits)

/-- An operand is multiplied with an immediate. -/
theorem loaded_three (three : inst.type = .imul3) :
    Loaded inst state pc (applyAll pc state (loadFactors inst)) := by
  have notUpper : hasUpper inst = false := by simp [hasUpper, three]
  have same : sources inst =
      (inst.translateExtended (source inst) .t1 .t4 false true,
        inst.translateExtended (inst.getOperand 2) .t2 .t4 false true) := by
    simp only [sources, source, three]
    rfl
  let first := inst.translateExtended (source inst) .t1 .t4 false true
  let second := inst.translateExtended (inst.getOperand 2) .t2 .t4 false true
  have immediate := form.immediate three
  obtain ⟨secondPlace, secondValue⟩ :=
    @translateExtended_immediate inst (inst.getOperand 2) .t2 immediate
      (by decide) .t4 false true
  have computes : ComputesInto [.t2] second.code :=
    inst.translateOperand_computesInto (not_isMem (Or.inr immediate)) _ _ _ _ _
      _
  have behind := @NoOverride.loadedBehind inst form.noOverride (source inst)
    form.rm form.valid [] [] ComputesInto.nil (by simp) .t1 (by decide)
    (by decide) (by decide) true pc state
  rw [List.nil_append, applyAll_nil] at behind
  have firstPlace := @translateExtended_register inst (source inst) .t1 .t4
    false true form.source_ne
  have firstKept : first.value ≠ .t2 := by
    rcases firstPlace with own | guest
    · rw [show first.value = .t1 from own]
      decide
    · exact ne_of_isGuest guest (by decide)
  let middle := applyAll pc state first.code
  let further := pc + BitVec.ofNat 64 (4 * first.code.length)
  have loaded : applyAll pc state (loadFactors inst) =
      applyAll further middle second.code := by
    rw [loadFactors, same, applyAll_append]
  rw [loaded]
  refine ⟨fun reg => ?_, ?_, fun _ => ?_, fun one => ?_, fun _ fits => ?_⟩
  · rw [computes.get _ _ (by simp)]
    exact behind.others _ (ne_of_isGuest (isGuest_mapReg reg) (by decide))
      (ne_of_isGuest (isGuest_mapReg reg) (by decide))
  · have accesses := behind.accesses
    rw [List.nil_append] at accesses
    rw [loadFactors, same, Environment.straightTrace_append,
      accessesApart_append, computes.accessesApart, List.append_nil]
    exact accesses
  · rw [same]
    refine ⟨factor_place form.source_ne (by decide) true, ?_⟩
    rw [show second.value = .t2 from secondPlace]
    decide
  · rw [one] at notUpper
    cases notUpper
  · rw [same]
    constructor
    · rw [show firstFactor inst state = inst.operandBits (source inst)
        inst.destinationSize state by simp only [firstFactor, source, three]]
      refine @setWidth_of_extend inst state _ _ true _ form.size ?_
      exact (computes.get _ _ (by simpa using firstKept)).trans
        (behind.value fits)
    · rw [show secondFactor inst state = inst.operandBits (inst.getOperand 2)
        inst.destinationSize state by simp only [secondFactor, three],
        show second.value = .t2 from secondPlace, secondValue]
      cases found : inst.getOperand 2 with
      | imm size => rfl
      | _ => simp [found, Operand.isImm] at immediate

theorem loadFactors_loaded :
    Loaded inst state pc (applyAll pc state (loadFactors inst)) := by
  rcases form.type with mul | imul | imul2 | imul3
  · exact loaded_one form pc state (by simp [hasUpper, mul])
  · exact loaded_one form pc state (by simp [hasUpper, imul])
  · exact loaded_two form pc state imul2
  · exact loaded_three form pc state imul3

end Load

/-! ## Products -/

section Multiply

variable {size : OperandSize} {first second lower : Register}
variable (pc : Word) (loaded : State)

/-- A product of bytes is written as one word. -/
theorem writePart_word
    (value : Word)
    (registers : Register -> Word)
    (register : Register) :
    writePart rax .word value registers register =
      writeHalves .byte value (value >>> 8) registers register := by
  have merges (old : Word) : RegisterAccess.word.merge old value =
      RegisterAccess.hbyte.merge (RegisterAccess.lbyte.merge old value)
        (value >>> 8) := by
    apply BitVec.eq_of_getLsbD_eq
    intro index inside
    simp only [RegisterAccess.merge, BitVec.getLsbD_append,
      BitVec.getLsbD_extractLsb', BitVec.getLsbD_setWidth,
      BitVec.getLsbD_ushiftRight]
    grind
  simp only [writeHalves, upperPlace, writePart, RegisterAccess.ofSize,
    if_true, merges]
  split <;> rfl

/-- The upper half of a word is a double word. -/
theorem merge_upper (old value : Word) :
    RegisterAccess.dword.merge old (value >>> 32) = value >>> 32 := by
  apply BitVec.eq_of_getLsbD_eq
  intro index inside
  simp only [RegisterAccess.merge, BitVec.getLsbD_setWidth,
    BitVec.getLsbD_ushiftRight]
  grind

theorem storeUpper_get
    (between : size = .word ∨ size = .dword)
    (state : State)
    (reg : Fadec.Register) :
    (applyAll pc state (storeUpper size)).get (mapReg reg) =
      writePart rdx (RegisterAccess.ofSize size) (state.get .t0 >>> size.bits)
        state.get (mapReg reg) := by
  have notTemp : mapReg reg ≠ .t4 :=
    ne_of_isGuest (isGuest_mapReg reg) (by decide)
  rcases between with rfl | rfl
  · let shifted := state.set .t0 (state.get .t0 >>> 16)
    have kept : ∀ register, isGuest register = true ->
        shifted.get register = state.get register := fun register own =>
      State.set_get_of_ne _ _ (ne_of_isGuest own (by decide))
    have held : shifted.get .t0 = state.get .t0 >>> 16 :=
      State.set_get_self _ _ (by decide)
    have code : storeUpper .word =
        srli .t0 .t0 16 :: moveToRegister rdx .t0 .word .t4 false := rfl
    have amount : ((16 : BitVec 8).setWidth 6).toNat = 16 := by decide
    have bits : OperandSize.word.bits = 16 := rfl
    rw [code, applyAll_cons, apply_srli, amount, bits]
    change (applyAll (pc + 4) shifted _).get (mapReg reg) = _
    rw [moveToRegister_writes (by decide) (by decide) (by decide) (by decide)
      (fun none => by cases none) _ _ notTemp, held]
    exact writePart_registers (kept _ (by decide))
      (kept _ (isGuest_mapReg reg)) _ _
  · have code : storeUpper .dword = [srli rdx .t0 32] := rfl
    have amount : ((32 : BitVec 8).setWidth 6).toNat = 32 := by decide
    have bits : OperandSize.dword.bits = 32 := rfl
    rw [code, applyAll_cons, applyAll_nil, apply_srli, amount, bits, writePart,
      RegisterAccess.ofSize, merge_upper]
    split
    · rename_i same
      rw [same, State.set_get_self _ _ (by decide)]
    · rename_i other
      exact State.set_get_of_ne _ _ other

/-- The part of a short product that goes to its register. -/
theorem moveProduct_get
    (guest : isGuest lower = true)
    (access : RegisterAccess)
    (reg : Fadec.Register) :
    let result := loaded.get first * loaded.get second
    (applyAll pc loaded (mul .t0 first second ::
        moveToRegister lower .t0 access .t4 false)).get (mapReg reg) =
      writePart lower access result loaded.get (mapReg reg) := by
  intro result
  let middle := loaded.set .t0 result
  have notTemp : mapReg reg ≠ .t4 :=
    ne_of_isGuest (isGuest_mapReg reg) (by decide)
  have kept : ∀ register, isGuest register = true ->
      middle.get register = loaded.get register := fun register own =>
    State.set_get_of_ne _ _ (ne_of_isGuest own (by decide))
  have held : middle.get .t0 = result := State.set_get_self _ _ (by decide)
  rw [applyAll_cons, apply_mul,
    moveToRegister_writes guest (by decide) (by decide) (by decide)
      (fun _ => (ne_of_isGuest guest (by decide)).symm) _ _ notTemp]
  change writePart lower _ (middle.get .t0) middle.get _ = _
  rw [held]
  exact writePart_registers (kept _ guest) (kept _ (isGuest_mapReg reg)) _ _

/-- A short product in two halves. -/
theorem multiplyShort_double
    (short : size ≠ .qword)
    (reg : Fadec.Register) :
    let result := loaded.get first * loaded.get second
    (applyAll pc loaded (multiplyShort size true rax first second)).get
        (mapReg reg) =
      writeHalves size result (result >>> size.bits) loaded.get
        (mapReg reg) := by
  intro result
  have moves := fun access => @moveProduct_get first second rax pc loaded
    (by decide) access
  by_cases byte : size = .byte
  · subst byte
    exact (moves .word reg).trans (writePart_word _ _ _)
  · have between : size = .word ∨ size = .dword := by
      cases size <;> simp at short byte ⊢
    let code := mul .t0 first second ::
      moveToRegister rax .t0 (RegisterAccess.ofSize size) .t4 false
    have split : multiplyShort size true rax first second =
        code ++ storeUpper size := by
      simp [multiplyShort, byte, code]
    have place : upperPlace size = (rdx, RegisterAccess.ofSize size) := by
      rcases between with rfl | rfl <;> rfl
    have held : (applyAll pc loaded code).get .t0 = result := by
      have computes := @moveToRegister_computesInto rax .t0 .t4
        (RegisterAccess.ofSize size) false
      simp only [code, applyAll_cons, apply_mul]
      rw [computes.get _ _ (by decide), State.set_get_self _ _ (by decide)]
    rw [split, applyAll_append, storeUpper_get _ between, held, writeHalves,
      place]
    exact writePart_registers (moves _ 2) (moves _ reg) _ _

/-- A short product in one register. -/
theorem multiplyShort_single
    (long : size ≠ .byte)
    (guest : isGuest lower = true)
    (reg : Fadec.Register) :
    (applyAll pc loaded (multiplyShort size false lower first second)).get
        (mapReg reg) =
      writePart lower (RegisterAccess.ofSize size)
        (loaded.get first * loaded.get second) loaded.get (mapReg reg) := by
  have code : multiplyShort size false lower first second =
      mul .t0 first second ::
        moveToRegister lower .t0 (RegisterAccess.ofSize size) .t4 false := by
    simp [multiplyShort, long]
  rw [code]
  exact moveProduct_get pc loaded guest _ reg

/-- A long product in two halves. -/
theorem multiplyLong_double
    (signed : Bool)
    (firstFree : first ≠ .t4)
    (secondFree : second ≠ .t4)
    (reg : Fadec.Register) :
    (applyAll pc loaded (multiplyLong signed true rax first second)).get
        (mapReg reg) =
      writeHalves .qword (loaded.get first * loaded.get second)
        ((extend signed (loaded.get first) 128 *
          extend signed (loaded.get second) 128).extractLsb' 64 64)
        loaded.get (mapReg reg) := by
  let high := (extend signed (loaded.get first) 128 *
    extend signed (loaded.get second) 128).extractLsb' 64 64
  let low := loaded.get first * loaded.get second
  have notTemp : mapReg reg ≠ .t4 :=
    ne_of_isGuest (isGuest_mapReg reg) (by decide)
  have different : rax ≠ rdx := by decide
  have upper : ∀ dest, (if signed then mulh dest first second
      else mulhu dest first second).apply pc loaded = loaded.set dest high := by
    intro dest
    cases signed <;> rfl
  have results : writeHalves .qword low high loaded.get (mapReg reg) =
      if mapReg reg = rdx then high
      else if mapReg reg = rax then low else loaded.get (mapReg reg) := rfl
  rw [results]
  by_cases overlaps : rdx = first ∨ rdx = second
  · have code : multiplyLong signed true rax first second =
        [if signed then mulh .t4 first second else mulhu .t4 first second,
          mul rax first second, mv rdx .t4] := by
      simp [multiplyLong, overlaps, (by decide : ¬ Register.t4 = rdx)]
    rw [code]
    simp only [applyAll_cons, applyAll_nil, upper, apply_mul, apply_mv,
      State.set_get_of_ne _ _ firstFree, State.set_get_of_ne _ _ secondFree,
      State.set_get_of_ne _ _ (by decide : Register.t4 ≠ rax),
      State.set_get_self _ _ (by decide : Register.t4 ≠ .zero)]
    split
    · rename_i same
      rw [same, State.set_get_self _ _ (by decide)]
    · rename_i other
      rw [State.set_get_of_ne _ _ other]
      split
      · rename_i same
        rw [same, State.set_get_self _ _ (by decide)]
      · rename_i further
        rw [State.set_get_of_ne _ _ further, State.set_get_of_ne _ _ notTemp]
  · have code : multiplyLong signed true rax first second =
        [if signed then mulh rdx first second else mulhu rdx first second,
          mul rax first second] := by
      simp [multiplyLong, overlaps]
    have firstKept : first ≠ rdx := fun same => overlaps (Or.inl same.symm)
    have secondKept : second ≠ rdx := fun same => overlaps (Or.inr same.symm)
    rw [code]
    simp only [applyAll_cons, applyAll_nil, upper, apply_mul,
      State.set_get_of_ne _ _ firstKept, State.set_get_of_ne _ _ secondKept]
    split
    · rename_i same
      rw [same, State.set_get_of_ne _ _ different.symm,
        State.set_get_self _ _ (by decide)]
    · rename_i other
      split
      · rename_i same
        rw [same, State.set_get_self _ _ (by decide)]
      · rename_i further
        rw [State.set_get_of_ne _ _ further, State.set_get_of_ne _ _ other]

/-- A long product in one register. -/
theorem multiplyLong_single
    (signed : Bool)
    (nonzero : lower ≠ .zero)
    (reg : Fadec.Register) :
    (applyAll pc loaded (multiplyLong signed false lower first second)).get
        (mapReg reg) =
      writePart lower .qword (loaded.get first * loaded.get second) loaded.get
        (mapReg reg) := by
  simp only [multiplyLong, Bool.false_eq_true, if_false, false_and,
    List.nil_append, applyAll_cons, applyAll_nil, apply_mul, writePart,
    RegisterAccess.merge]
  split
  · rename_i same
    rw [same, State.set_get_self _ _ nonzero]
  · rename_i other
    exact State.set_get_of_ne _ _ other

end Multiply

/-! ## Results -/

section Halves

variable {size : OperandSize} (signed : Bool) (first second : BitVec size.bits)
variable (registers : Register -> Word)

/-- The registers after a product in two halves. -/
def productHalves : Register -> Word :=
  let product := value signed first * value signed second
  writeHalves size ((BitVec.ofInt size.bits product).setWidth 64)
    (((BitVec.ofInt (size.bits + size.bits) product).extractLsb' size.bits
      size.bits).setWidth 64)
    registers

/-- A product of short operands is in one register. -/
theorem writeHalves_eq_product_iff (word : Word) :
    (∀ reg, writeHalves size word (word >>> size.bits) registers (mapReg reg) =
        productHalves signed first second registers (mapReg reg)) ↔
      word.setWidth (size.bits + size.bits) =
        BitVec.ofInt (size.bits + size.bits)
          (value signed first * value signed second) := by
  have low := @setWidth_ofInt (size.bits + size.bits) size.bits (by omega)
    (value signed first * value signed second)
  rw [← halves_eq_iff, low]
  simp only [productHalves]
  rw [writeHalves_eq_iff, setWidth_bits, setWidth_bits]

/-- A product of long operands. -/
theorem writeHalves_long
    (long : size = .qword)
    (register : Register) :
    writeHalves .qword (extend signed first 64 * extend signed second 64)
        ((extend signed (extend signed first 64) 128 *
          extend signed (extend signed second 64) 128).extractLsb' 64 64)
        registers register =
      productHalves signed first second registers register := by
  subst long
  -- The operands are whole words.
  have halves (first second : BitVec 64) :
      writeHalves .qword (extend signed first 64 * extend signed second 64)
          ((extend signed (extend signed first 64) 128 *
            extend signed (extend signed second 64) 128).extractLsb' 64 64)
          registers register =
        writeHalves .qword
          ((BitVec.ofInt 64
            (value signed first * value signed second)).setWidth 64)
          (((BitVec.ofInt 128
            (value signed first * value signed second)).extractLsb' 64
              64).setWidth 64) registers register := by
    rw [extend_mul_extend, extend_self, extend_self, extend_mul_extend,
      BitVec.setWidth_eq, BitVec.setWidth_eq]
  exact halves first second

end Halves

section Results

variable (inst : Instruction) (state : State)

/-- The registers after a multiplication on x86. -/
def productRegisters : Register -> Word :=
  if hasUpper inst then
    productHalves (isSigned inst) (firstFactor inst state)
      (secondFactor inst state) state.get
  else
    writePart inst.firstRegister (RegisterAccess.ofSize inst.destinationSize)
      ((BitVec.ofInt inst.destinationSize.bits
        (value (isSigned inst) (firstFactor inst state) *
          value (isSigned inst) (secondFactor inst state))).setWidth 64)
      state.get

/-- The product is in the registers of the guest. -/
def Multiplies (env : Environment) (code : List Inst) : Prop :=
  ∃ visited final, env.Traces code state visited (.ended final) ∧
    accessesApart contextAddress visited =
      inst.loadAccesses (source inst) state ∧
    ∀ reg, final.get (mapReg reg) = productRegisters inst state (mapReg reg)

/-- If the first factor is lost, the product of the address and the operand
has the same low bits. -/
def AddressMultiplies : Prop :=
  LosesFirst inst ->
    (2 ^ (inst.destinationSize.bits + inst.destinationSize.bits) : Int) ∣
      ((inst.partialAddress (source inst) state).toNat -
          value (isSigned inst) (firstFactor inst state)) *
        value (isSigned inst) (secondFactor inst state)

/-- The multiplication itself. -/
def multiply : List Inst :=
  let lower := if hasUpper inst then rax else inst.firstRegister
  if inst.destinationSize = .qword then
    multiplyLong (isSigned inst) (hasUpper inst) lower (sources inst).1.value
      (sources inst).2.value
  else
    multiplyShort inst.destinationSize (hasUpper inst) lower
      (sources inst).1.value (sources inst).2.value

/-- The flags are reported as unsupported. -/
def reports (symbols : HostSymbols) : List Inst :=
  inst.updateOverflowUnsupported (symbols.text "MUL") .t4 ++
    inst.updateCarryUnsupported (symbols.text "MUL") .t4

theorem reports_updates (symbols : HostSymbols) :
    UpdatesFields [.t4] (reports inst symbols) :=
  inst.unsupported_updates (symbols.text "MUL") .t4

theorem generate_eq (symbols : HostSymbols) :
    generate symbols inst =
      loadFactors inst ++ (multiply inst ++ reports inst symbols) := by
  rw [reports, ← List.append_assoc, ← List.append_assoc]
  rfl

end Results

section Values

variable {inst : Instruction} (form : Multiplication inst)
variable {state loaded : State} {pc : Word}
variable (factors : Loaded inst state pc loaded)
variable (fits : (source inst).isMem = true ->
  inst.AddressFits (source inst) state)

include factors fits

/-- A product in two halves is right if and only if the first factor is not
lost, or it does not matter. -/
theorem multiply_double_iff (double : hasUpper inst = true) (later : Word) :
    (∀ reg, (applyAll later loaded (multiply inst)).get (mapReg reg) =
        productRegisters inst state (mapReg reg)) ↔
      AddressMultiplies inst state := by
  obtain ⟨firstWord, secondWord⟩ := factors.double double fits
  have registers : productRegisters inst state =
      productHalves (isSigned inst) (firstFactor inst state)
        (secondFactor inst state) state.get := if_pos double
  rw [registers]
  by_cases long : inst.destinationSize = .qword
  · have keeps : ¬ LosesFirst inst := fun loses => loses.2.1 long
    rw [if_neg keeps] at firstWord
    refine iff_of_true (fun reg => ?_) fun loses => absurd loses keeps
    obtain ⟨firstFree, secondFree⟩ := factors.places long
    have code : multiply inst = multiplyLong (isSigned inst) true rax
        (sources inst).1.value (sources inst).2.value := by
      simp [multiply, double, long]
    rw [code, multiplyLong_double _ _ _ firstFree secondFree, firstWord,
      secondWord, writeHalves_registers factors.guest]
    exact writeHalves_long _ _ _ _ long _
  · have code : multiply inst = multiplyShort inst.destinationSize true rax
        (sources inst).1.value (sources inst).2.value := by
      simp [multiply, double, long]
    have narrow : inst.destinationSize.bits + inst.destinationSize.bits ≤
        64 := by
      cases found : inst.destinationSize with
      | qword => exact absurd found long
      | _ => decide
    simp only [code, multiplyShort_double _ _ long,
      writeHalves_registers factors.guest]
    rw [writeHalves_eq_product_iff, firstWord, secondWord]
    by_cases loses : LosesFirst inst
    · rw [if_pos loses, setWidth_mul_extend_iff _ _ _ narrow, AddressMultiplies,
        forall_prop_of_true loses]
    · rw [if_neg loses, extend_mul_extend, setWidth_ofInt narrow]
      exact iff_of_true rfl fun lost => absurd lost loses

include form in
/-- A product in one register is always right. -/
theorem multiply_single
    (single : hasUpper inst = false)
    (later : Word)
    (reg : Fadec.Register) :
    (applyAll later loaded (multiply inst)).get (mapReg reg) =
      productRegisters inst state (mapReg reg) := by
  obtain ⟨firstLow, secondLow⟩ := factors.single single fits
  obtain ⟨notByte, register, destination⟩ := form.destination single
  have guest : isGuest inst.firstRegister = true := by
    rw [firstRegister, destination]
    exact isGuest_mapReg register
  have low := setWidth_mul_eq (isSigned inst) (firstFactor inst state)
    (secondFactor inst state) inst.destinationSize.bits_le firstLow secondLow
  have written : (applyAll later loaded (multiply inst)).get (mapReg reg) =
      writePart inst.firstRegister (RegisterAccess.ofSize inst.destinationSize)
        (loaded.get (sources inst).1.value *
          loaded.get (sources inst).2.value) loaded.get (mapReg reg) := by
    by_cases long : inst.destinationSize = .qword
    · have code : multiply inst = multiplyLong (isSigned inst) false
          inst.firstRegister (sources inst).1.value (sources inst).2.value := by
        simp [multiply, single, long]
      rw [code, multiplyLong_single _ _ _ (ne_of_isGuest guest (by decide)),
        long]
      rfl
    · have code : multiply inst = multiplyShort inst.destinationSize false
          inst.firstRegister (sources inst).1.value (sources inst).2.value := by
        simp [multiply, single, long]
      rw [code, multiplyShort_single _ _ notByte guest]
  have samePlace : loaded.get inst.firstRegister =
      state.get inst.firstRegister := by
    rw [firstRegister, destination]
    exact factors.guest register
  rw [written, writePart_registers samePlace (factors.guest reg),
    productRegisters, single, if_neg Bool.false_ne_true]
  refine congrFun (writePart_congr _ ?_ _) _
  rw [ofSize_bits, setWidth_bits, low]

end Values

/-! ## The whole multiplication -/

section Generate

variable (inst : Instruction)

theorem multiplyLong_computesInto
    (signed upper : Bool)
    (lower first second : Register) :
    ComputesInto [lower, rdx, .t0, .t4]
      (multiplyLong signed upper lower first second) := by
  have result : ∀ chosen, chosen = rdx ∨ chosen = .t4 ->
      ComputesInto [lower, rdx, .t0, .t4]
        [if signed then mulh chosen first second
          else mulhu chosen first second] := by
    intro chosen either
    have inside : chosen ∈ [lower, rdx, .t0, .t4] := by
      rcases either with rfl | rfl <;> simp
    cases signed <;> exact ComputesInto.singleton rfl rfl inside
  have product : ComputesInto [lower, rdx, .t0, .t4]
      [mul lower first second] :=
    ComputesInto.singleton rfl rfl (by simp)
  have move : ComputesInto [lower, rdx, .t0, .t4] [mv rdx .t4] :=
    ComputesInto.singleton rfl rfl (by simp)
  cases upper with
  | false =>
      simpa [multiplyLong] using product
  | true =>
      by_cases overlaps : rdx = first ∨ rdx = second
      · have code : multiplyLong signed true lower first second =
            [if signed then mulh .t4 first second
              else mulhu .t4 first second] ++
            ([mul lower first second] ++ [mv rdx .t4]) := by
          simp [multiplyLong, overlaps, (by decide : ¬ Register.t4 = rdx)]
        rw [code]
        exact ComputesInto.append_iff.mpr ⟨result _ (Or.inr rfl),
          ComputesInto.append_iff.mpr ⟨product, move⟩⟩
      · have code : multiplyLong signed true lower first second =
            [if signed then mulh rdx first second
              else mulhu rdx first second] ++
            [mul lower first second] := by
          simp [multiplyLong, overlaps]
        rw [code]
        exact ComputesInto.append_iff.mpr ⟨result _ (Or.inl rfl), product⟩

theorem multiplyShort_computesInto
    (size : OperandSize)
    (upper : Bool)
    (lower first second : Register) :
    ComputesInto [lower, rdx, .t0, .t4]
      (multiplyShort size upper lower first second) := by
  have moves := fun dest access =>
    @moveToRegister_computesInto dest .t0 .t4 access false
  refine ComputesInto.cons_iff.mpr
    ⟨Inst.computesInto_of_target rfl rfl (by simp), ?_⟩
  split
  · exact (moves _ _).mono (by simp)
  · refine ComputesInto.append_iff.mpr ⟨(moves _ _).mono (by simp), ?_⟩
    cases upper with
    | false => exact ComputesInto.nil
    | true =>
        rw [if_pos rfl, storeUpper]
        split
        · exact ComputesInto.singleton rfl rfl (by simp)
        · exact ComputesInto.cons_iff.mpr
            ⟨Inst.computesInto_of_target rfl rfl (by simp),
              (moves _ _).mono (by simp)⟩

theorem multiply_computesInto :
    ∃ registers, ComputesInto registers (multiply inst) := by
  rw [multiply]
  split
  · exact ⟨_, multiplyLong_computesInto _ _ _ _ _⟩
  · exact ⟨_, multiplyShort_computesInto _ _ _ _ _⟩

theorem loadFactors_straight :
    ∀ written ∈ loadFactors inst, written.isStraight = true := by
  have factor : ∀ (op : Operand) temp signed,
      ∀ written ∈ (translateFactor inst op temp signed).code,
        written.isStraight = true :=
    fun op temp signed =>
      @translateExtended_straight inst op temp .t4 false signed
  intro written member
  rw [loadFactors] at member
  rcases List.mem_append.mp member with first | second
  · cases type : inst.type <;> simp only [sources, type] at first
    all_goals first
      | exact factor _ _ _ _ first
      | exact (loadFromRegister_computesInto _ _ _ _).straight _ first
  · cases type : inst.type <;> simp only [sources, type] at second
    all_goals exact factor _ _ _ _ second

/-- No operand of the guest is accessed behind the loads. -/
theorem multiply_base (symbols : HostSymbols) :
    ∀ written ∈ multiply inst ++ reports inst symbols,
      written.isStraight = true ∧
        (written.base = none ∨ written.base = some contextAddress) := by
  intro written member
  obtain ⟨registers, computes⟩ := multiply_computesInto inst
  have updates := reports_updates inst symbols
  rcases List.mem_append.mp member with multiplies | reported
  · exact ⟨computes.straight _ multiplies,
      Or.inl (computes.base_none _ multiplies)⟩
  · exact ⟨updates.straight _ reported, updates.base_eq _ reported⟩

end Generate

section Iff

variable {inst : Instruction} (form : Multiplication inst)
variable {env : Environment} (permits : env.PermitsEverything)
variable (symbols : HostSymbols) (state : State)

include form in
theorem Multiplication.generated (entries : Nat) :
    inst.generate symbols entries = some (generate symbols inst) := by
  simp [Instruction.generate, form.multiplication]

include form in
/-- The registers are right if and only if a lost factor does not matter. -/
theorem registers_iff
    {pc later : Word}
    (fits : (source inst).isMem = true ->
      inst.AddressFits (source inst) state) :
    (∀ reg, (applyAll later (applyAll pc state (loadFactors inst))
        (multiply inst ++ reports inst symbols)).get (mapReg reg) =
          productRegisters inst state (mapReg reg)) ↔
      AddressMultiplies inst state := by
  have factors := loadFactors_loaded form pc state
  have updates := reports_updates inst symbols
  have kept : ∀ reg, mapReg reg ∉ [Register.t4] := fun reg =>
    fun inside => ne_of_isGuest (isGuest_mapReg reg) (by decide)
      (List.mem_singleton.mp inside)
  simp only [applyAll_append, updates.get _ _ (kept _)]
  cases double : hasUpper inst with
  | true => exact multiply_double_iff factors fits double later
  | false =>
      refine iff_of_true (multiply_single form factors fits double later) ?_
      intro loses
      rw [loses.1] at double
      cases double

include form permits in
theorem multiplies_iff :
    Multiplies inst state env (generate symbols inst) ↔
      ((source inst).isMem = true -> inst.AddressFits (source inst) state) ∧
        AddressMultiplies inst state := by
  have straight : ∀ written ∈ generate symbols inst,
      written.isStraight = true := by
    intro written member
    rw [generate_eq] at member
    rcases List.mem_append.mp member with loads | rest
    · exact loadFactors_straight inst _ loads
    · exact (multiply_base inst symbols _ rest).1
  have traces := @Environment.traces_straight env state _ straight
    (permits.permitsAll state _)
  have factors := loadFactors_loaded form env.origin state
  have accesses : accessesApart contextAddress
      (Environment.straightTrace env.origin state (generate symbols inst)) =
      accessesApart contextAddress
        (Environment.straightTrace env.origin state (loadFactors inst)) := by
    rw [generate_eq, Environment.straightTrace_append, accessesApart_append,
      accessesApart_eq_nil fun visit member =>
        (multiply_base inst symbols _
          (mem_code_of_mem_straightTrace member)).2,
      List.append_nil]
  have registers := @registers_iff inst form symbols state env.origin
    (env.origin + BitVec.ofNat 64 (4 * (loadFactors inst).length))
  rw [← applyAll_append, ← generate_eq] at registers
  constructor
  · rintro ⟨visited, final, other, otherAccesses, same⟩
    obtain ⟨rfl, ended⟩ := other.unique traces
    cases ended
    have fits := factors.accesses.mp (accesses.symm.trans otherAccesses)
    exact ⟨fits, (registers fits).mp same⟩
  · rintro ⟨fits, multiplies⟩
    exact ⟨_, _, traces, accesses.trans (factors.accesses.mpr fits),
      (registers fits).mpr multiplies⟩

include form permits in
/-- A multiplication leaves the product of x86 if and only if the address of its
operand fits, and a first factor that is lost to it does not matter. -/
theorem generate_multiplies_iff (entries : Nat) :
    (∃ code, inst.generate symbols entries = some code ∧
      Multiplies inst state env code) ↔
      ((source inst).isMem = true -> inst.AddressFits (source inst) state) ∧
        AddressMultiplies inst state := by
  simp only [form.generated symbols entries, Option.some.injEq,
    exists_eq_left']
  exact multiplies_iff form permits symbols state

end Iff

/-- `mul dword [rbx + rcx]` -/
def mulIndexed : Instruction :=
  InstructionClass.mul.construct
    { type := .mul, operands := [.mem .dword (some 3)],
      indexRegister := some 1 }

theorem mulIndexed_multiplication : Multiplication mulIndexed where
  multiplication := rfl
  type := Or.inl rfl
  noOverride := by exact ⟨by decide, by decide⟩
  rm := rfl
  valid := rfl
  size := rfl
  destination := by
    intro short
    cases short
  immediate := by
    intro three
    cases three

/-- The first factor is the address of the second one, which is seven. -/
def ownAddressState : State :=
  { ((zeroState.set (mapReg 0) 0x1020).set (mapReg 3) 0x1000).set
      (mapReg 1) 0x20 with
    mem := Memory.store (fun _ => 0) 0x1020 4 7 }

theorem generate_multiplies_iff_mulIndexed :
    ∃ code, mulIndexed.generate sampleSymbols 0 = some code ∧
      Multiplies mulIndexed ownAddressState Stub.environment code :=
  (generate_multiplies_iff mulIndexed_multiplication (fun _ _ => rfl)
    sampleSymbols ownAddressState 0).mpr
      ⟨fun _ => by decide +kernel, fun _ => by decide +kernel⟩

/-- The factors are one and two, and the second one is at the address four. -/
def indexedState : State :=
  { ((zeroState.set (mapReg 0) 1).set (mapReg 3) 4) with
    mem := Memory.store (fun _ => 0) 4 4 2 }

/-- The address is multiplied. -/
theorem mulIndexed_multipliesAddress :
    ¬ ∃ code, mulIndexed.generate sampleSymbols 0 = some code ∧
      Multiplies mulIndexed indexedState Stub.environment code := by
  rintro ⟨code, generated, multiplies⟩
  rw [mulIndexed_multiplication.generated, Option.some.injEq] at generated
  subst generated
  have divides := ((multiplies_iff mulIndexed_multiplication (fun _ _ => rfl)
    sampleSymbols indexedState).mp multiplies).2
  have lost : LosesFirst mulIndexed := by decide
  have multiple := divides lost
  revert multiple
  decide +kernel

end Mul

end Oxtra

import Oxtra.Helper.LoadAddress
import Oxtra.Helper.LoadImmediate
import Oxtra.Library.RiscV.Encoding
import Oxtra.Library.RiscV.Program

/-!
# Chaining of blocks

A block that ends in a call of `reroute_static` is patched once the address of
the next block is known: the code in front of the return address of this call
becomes a jump to this address.
-/

namespace Oxtra

open RiscV

/-! ## Code in memory -/

/-- The instruction words in the memory of the host. -/
abbrev CodeWords := Word -> BitVec 32

/-- A pointer into host code, and the number of words written so far. -/
structure CodeMemory where
  address : Word
  maxSize : Nat
  count : Nat := 0
  words : CodeWords

namespace CodeMemory

/-- Address of a word. -/
def pointer (start : Word) (index : Nat) : Word :=
  start + BitVec.ofNat 64 (4 * index)

/-- The memory after another word is written. -/
def put (code : CodeMemory) (inst : Inst) : CodeMemory :=
  { code with
    count := code.count + 1
    words := fun address =>
      if address = pointer code.address code.count then
        inst.encode
      else
        code.words address }

/-- `CodeMemory::add` without a debugger.  Nothing is the buffer overflow. -/
def add (code : CodeMemory) (inst : Inst) : Option CodeMemory :=
  if code.count ≥ code.maxSize then none else some (code.put inst)

/-- Add some instructions, one after the other. -/
def addAll (code : CodeMemory) (insts : List Inst) : Option CodeMemory :=
  insts.foldlM add code

end CodeMemory

namespace CodeGenerator

open Helper

/-- Number of words in front of the return address of a call of
`reroute_static`. -/
def batchSize : Nat := 9

/-- The address of the code that `update_basic_block` replaces. -/
def slotStart (addr : Word) : Word := addr - BitVec.ofNat 64 (batchSize * 4)

/-- The distance is within the 4 GiB around the code. -/
def isNear (diff : Word) : Bool := diff.abs.sle 0x7fffffff

/-- The upper part of a distance, which makes up for a negative lower one. -/
def upperPart (diff : Word) : Word :=
  if diff &&& 0xfff &&& 0x800 ≠ 0 then (diff >>> 12) + 1 else diff >>> 12

/-- The jump over a distance that is near. -/
def nearJump (diff : Word) : List Inst :=
  [Encoding.auipc addressDestination ((upperPart diff).setWidth 32),
    Encoding.jalr .zero addressDestination ((diff &&& 0xfff).setWidth 16)]

/-- The jump to an address that is not. -/
def farJump (absoluteAddress : Word) : List Inst :=
  loadImmediate absoluteAddress addressDestination ++
    [Encoding.jalr .zero addressDestination 0]

/-- `update_basic_block` without a debugger. -/
def updateBasicBlock
    (words : CodeWords)
    (addr absoluteAddress : Word) : Option CodeWords := do
  let start := slotStart addr
  let code : CodeMemory :=
    { address := start, maxSize := batchSize, words := words }
  let diff := absoluteAddress - start
  let code ←
    if isNear diff then
      code.addAll (nearJump diff)
    else
      code.addAll (farJump absoluteAddress)
  return code.words

/-- `load_address` emits eight instructions, whatever the address is.  They
load the address and change nothing else, so that a call of `reroute_static`
has the size of the slot. -/
theorem loadAddress_fills_slot (ptr : BitVec 64) (dest : Register) :
    (loadAddress ptr dest).length = 8 ∧
      (∀ (pc : Word) (state : State),
        let final := applyAll pc state (loadAddress ptr dest)
        (dest ≠ .zero -> final.get dest = ptr) ∧
          (∀ register ≠ dest, final.get register = state.get register) ∧
          final.mem = state.mem) ∧
      (appendEob ptr).length = batchSize := by
  have computes := loadAddress_computesInto ptr dest
  refine ⟨rfl, fun pc state => ⟨?_, ?_, computes.mem pc state⟩, rfl⟩
  · intro nonzero
    rw [applyAll_loadAddress pc state ptr nonzero,
      State.set_get_self _ _ nonzero]
  · intro register other
    exact computes.get pc state (by simpa using other)

/-! ## The words of the slot -/

/-- Some code lies at an address. -/
def HoldsCode (words : CodeWords) (start : Word) (code : List Inst) : Prop :=
  ∀ index inst, code[index]? = some inst ->
    words (CodeMemory.pointer start index) = inst.encode

theorem pointer_injective
    {start : Word}
    {first second : Nat}
    (firstBound : first < 2 ^ 62)
    (secondBound : second < 2 ^ 62)
    (same : CodeMemory.pointer start first =
      CodeMemory.pointer start second) :
    first = second := by
  have offsets := congrArg (fun pointer => (pointer - start).toNat) same
  simp only [CodeMemory.pointer, BitVec.add_comm start, BitVec.add_sub_cancel,
    BitVec.toNat_ofNat] at offsets
  omega

/-- The same code is at the same address. -/
theorem HoldsCode.unique
    {words : CodeWords}
    {start : Word}
    {first second : List Inst}
    (firstHeld : HoldsCode words start first)
    (secondHeld : HoldsCode words start second)
    (sameLength : first.length = second.length) :
    first = second := by
  apply List.ext_getElem sameLength
  intro index firstBound secondBound
  apply Inst.encode_injective
  rw [← firstHeld index _ (List.getElem?_eq_getElem firstBound),
    ← secondHeld index _ (List.getElem?_eq_getElem secondBound)]

/-- Instructions that fit are written one behind the other. -/
theorem addAll_spec
    {code : CodeMemory}
    {insts : List Inst}
    (bound : code.maxSize < 2 ^ 62)
    (fits : code.count + insts.length ≤ code.maxSize) :
    ∃ after, code.addAll insts = some after ∧
      (∀ index inst, insts[index]? = some inst ->
        after.words (CodeMemory.pointer code.address (code.count + index)) =
          inst.encode) ∧
      ∀ address,
        (∀ index < insts.length,
          address ≠ CodeMemory.pointer code.address (code.count + index)) ->
        after.words address = code.words address := by
  induction insts generalizing code with
  | nil => exact ⟨code, rfl, by simp, fun _ _ => rfl⟩
  | cons inst rest inductionHypothesis =>
      rw [List.length_cons] at fits
      have notFull : ¬ code.count ≥ code.maxSize := by omega
      have adds : code.add inst = some (code.put inst) := if_neg notFull
      obtain ⟨after, addsRest, written, kept⟩ :=
        @inductionHypothesis (code.put inst) bound
          (show code.count + 1 + rest.length ≤ code.maxSize by omega)
      change ∀ index other, rest[index]? = some other ->
        after.words (CodeMemory.pointer code.address
          (code.count + 1 + index)) = other.encode at written
      change ∀ address, (∀ index < rest.length,
        address ≠ CodeMemory.pointer code.address (code.count + 1 + index)) ->
          after.words address =
            if address = CodeMemory.pointer code.address code.count then
              inst.encode
            else
              code.words address at kept
      refine ⟨after, ?_, ?_, ?_⟩
      · rw [CodeMemory.addAll, List.foldlM_cons, adds]
        exact addsRest
      · intro index other found
        cases index with
        | zero =>
            obtain rfl : inst = other := by simpa using found
            rw [Nat.add_zero, kept, if_pos rfl]
            intro index inside same
            have equal := pointer_injective (by omega)
              (show code.count + 1 + index < 2 ^ 62 by omega) same
            omega
        | succ index =>
            have there := written index other (by simpa using found)
            rwa [Nat.add_assoc, Nat.add_comm 1 index] at there
      · intro address outside
        have here := outside 0 (by simp)
        rw [Nat.add_zero] at here
        rw [kept, if_neg here]
        intro index inside same
        apply outside (index + 1) (by simpa using inside)
        rwa [Nat.add_comm index 1, ← Nat.add_assoc]

/-- The new code of the slot. -/
def jumpCode (start absoluteAddress : Word) : List Inst :=
  if isNear (absoluteAddress - start) then
    nearJump (absoluteAddress - start)
  else
    farJump absoluteAddress

theorem length_jumpCode_le (start absoluteAddress : Word) :
    (jumpCode start absoluteAddress).length ≤ batchSize := by
  unfold jumpCode
  split
  · exact (by decide : 2 ≤ 9)
  · have few := length_loadImmediate_le absoluteAddress addressDestination
    simp only [farJump, List.length_append, List.length_singleton, batchSize]
    omega

/-- The update replaces the first instructions of the slot and nothing
else. -/
theorem updateBasicBlock_spec
    {words : CodeWords}
    {addr absoluteAddress : Word}
    {before : List Inst}
    (held : HoldsCode words (slotStart addr) before)
    (full : before.length = batchSize) :
    let code := jumpCode (slotStart addr) absoluteAddress
    ∃ after, updateBasicBlock words addr absoluteAddress = some after ∧
      HoldsCode after (slotStart addr) (code ++ before.drop code.length) ∧
      ∀ address,
        (∀ index < batchSize,
          address ≠ CodeMemory.pointer (slotStart addr) index) ->
        after address = words address := by
  intro code
  have few : code.length ≤ 9 :=
    length_jumpCode_le (slotStart addr) absoluteAddress
  obtain ⟨after, adds, written, kept⟩ := @addAll_spec
    { address := slotStart addr, maxSize := batchSize, words := words } code
    (by decide : 9 < 2 ^ 62) (show 0 + code.length ≤ 9 by omega)
  refine ⟨after.words, ?_, ?_, ?_⟩
  · simp only [code, jumpCode] at adds
    unfold updateBasicBlock
    split at adds
    · rename_i near
      simp only [near, if_true, adds]
      rfl
    · rename_i notNear
      simp only [notNear, Bool.false_eq_true, if_false, adds]
      rfl
  · intro index inst found
    rcases Nat.lt_or_ge index code.length with less | notLess
    · rw [List.getElem?_append_left less] at found
      have there := written index inst found
      rwa [Nat.zero_add] at there
    · rw [List.getElem?_append_right notLess, List.getElem?_drop,
        Nat.add_sub_cancel' notLess] at found
      have bound := (List.getElem?_eq_some_iff.mp found).1
      rw [kept]
      · exact held index inst found
      · intro other inside same
        have small : index < 9 := by simpa [full, batchSize] using bound
        have equal := @pointer_injective (slotStart addr) index (0 + other)
          (by omega) (by omega) same
        omega
  · intro address outside
    apply kept
    intro index inside
    rw [Nat.zero_add]
    exact outside index (show index < 9 by omega)

/-! ## Jumps of the slot -/

/-- Nothing outside of the code is a call. -/
def environment (origin : Word) (aligned : origin.toNat % 4 = 0) :
    Environment where
  origin := origin
  aligned := aligned
  call := fun _ _ => none
  permits := fun _ _ => true

theorem environment_permits (origin : Word) (aligned : origin.toNat % 4 = 0) :
    (environment origin aligned).PermitsEverything :=
  fun _ _ => rfl

/-- The slot in front of an address jumps to the target from every state, and
changes the register `t3` at most. -/
def JumpsTo (words : CodeWords) (addr target : Word) : Prop :=
  ∃ code, code.length = batchSize ∧ HoldsCode words (slotStart addr) code ∧
    ∀ aligned state, ∃ final,
      (environment (slotStart addr) aligned).Exits code state
          (.left target final) ∧
        final.mem = state.mem ∧
        ∀ register, register ≠ addressDestination ->
          final.get register = state.get register

/-- The distance that the near jump goes. -/
def nearDistance (diff : Word) : Word :=
  (((upperPart diff).setWidth 32).setWidth 20 ++ 0#12).signExtend 64 +
    (((diff &&& 0xfff).setWidth 16).setWidth 12).signExtend 64

/-- A short distance as a number. -/
theorem toNat_low (diff : Word) :
    (diff &&& 0xfff).toNat = diff.toNat % 4096 := by
  rw [BitVec.toNat_and]
  exact Nat.and_two_pow_sub_one_eq_mod _ 12

theorem lowBit_iff (diff : Word) :
    diff &&& 0xfff &&& 0x800 ≠ 0 ↔ 2048 ≤ diff.toNat % 4096 := by
  have bit : (diff &&& 0xfff).getLsbD 11 =
      decide (2048 ≤ diff.toNat % 4096) := by
    rw [BitVec.getLsbD, toNat_low, Nat.testBit_eq_decide_div_mod_eq,
      decide_eq_decide]
    omega
  have power : (0x800 : Word) = BitVec.twoPow 64 11 := by decide
  rw [power, BitVec.and_twoPow, bit]
  by_cases long : 2048 ≤ diff.toNat % 4096
  · simp only [long, decide_true, if_true, iff_true]
    decide
  · simp [long]

theorem toNat_upper (diff : Word) :
    (((upperPart diff).setWidth 32).setWidth 20).toNat =
      (diff.toNat / 4096 + if 2048 ≤ diff.toNat % 4096 then 1 else 0) %
        2 ^ 20 := by
  have shifted : (diff >>> 12).toNat = diff.toNat / 4096 := by
    rw [BitVec.toNat_ushiftRight, Nat.shiftRight_eq_div_pow]
  have one : (1 : Word).toNat = 1 := rfl
  have bound := diff.isLt
  unfold upperPart
  simp only [lowBit_iff]
  split
  · simp only [BitVec.toNat_setWidth, BitVec.toNat_add, shifted, one]
    omega
  · simp only [BitVec.toNat_setWidth, shifted]
    omega

/-- A sign extension as a number. -/
theorem toNat_signExtend
    {width : Nat}
    (value : BitVec width)
    (fits : width ≤ 64) :
    (value.signExtend 64).toNat =
      value.toNat + if 2 ^ (width - 1) ≤ value.toNat then
        2 ^ 64 - 2 ^ width else 0 := by
  rw [BitVec.toNat_signExtend, BitVec.msb_eq_decide, BitVec.toNat_setWidth,
    Nat.mod_eq_of_lt (Nat.lt_of_lt_of_le value.isLt
      (Nat.pow_le_pow_right (by decide) fits))]
  simp

theorem toNat_nearDistance (diff : Word) :
    let low := diff.toNat % 4096
    let upper := (diff.toNat / 4096 + if 2048 ≤ low then 1 else 0) % 2 ^ 20
    (nearDistance diff).toNat =
      (upper * 2 ^ 12 + (if 2 ^ 31 ≤ upper * 2 ^ 12 then 2 ^ 64 - 2 ^ 32 else 0) +
        (low + if 2 ^ 11 ≤ low then 2 ^ 64 - 2 ^ 12 else 0)) % 2 ^ 64 := by
  have lowEq : (((diff &&& 0xfff).setWidth 16).setWidth 12).toNat =
      diff.toNat % 4096 := by
    simp only [BitVec.toNat_setWidth, toNat_low]
    omega
  rw [nearDistance, BitVec.toNat_add, toNat_signExtend _ (by decide),
    toNat_signExtend _ (by decide), lowEq, Format.toNat_append, toNat_upper]
  simp only [Nat.reduceAdd, Nat.reduceSub, BitVec.toNat_ofNat, Nat.zero_mod,
    Nat.add_zero]

/-- The near jump goes the right distance if this is not too close to the end
of the range. -/
theorem nearDistance_eq_iff (diff : Word) :
    nearDistance diff = diff ↔
      -0x80000800 ≤ diff.toInt ∧ diff.toInt < 0x7ffff800 := by
  have bound := diff.isLt
  have value : (nearDistance diff).toNat = diff.toNat ↔
      -0x80000800 ≤ diff.toInt ∧ diff.toInt < 0x7ffff800 := by
    rw [toNat_nearDistance, BitVec.toInt_eq_toNat_cond]
    split <;> split <;> split <;> split <;> omega
  rw [← value]
  exact ⟨congrArg BitVec.toNat, BitVec.eq_of_toNat_eq⟩

theorem nearDistance_even
    {diff : Word}
    (even : diff.toNat % 2 = 0) :
    (nearDistance diff).toNat % 2 = 0 := by
  rw [toNat_nearDistance]
  split <;> split <;> split <;> omega

theorem isNear_iff (diff : Word) :
    isNear diff = true ↔
      -0x7fffffff ≤ diff.toInt ∧ diff.toInt ≤ 0x7fffffff ∨
        diff.toInt = -2 ^ 63 := by
  have bound := diff.isLt
  have limit : (0x7fffffff : Word).toInt = 0x7fffffff := rfl
  rw [isNear, BitVec.sle_iff_toInt_le, limit, BitVec.toInt_eq_toNat_cond,
    BitVec.toNat_abs, BitVec.msb_eq_decide, BitVec.toInt_eq_toNat_cond]
  by_cases negative : 2 ^ 63 ≤ diff.toNat
  · simp only [Nat.add_one_sub_one, negative, decide_true, if_true]
    split <;> split <;> omega
  · simp only [Nat.add_one_sub_one, negative, decide_false, Bool.false_eq_true,
      if_false]
    split <;> omega

/-! ## The chained block -/

theorem slotStart_aligned
    {addr : Word}
    (aligned : addr.toNat % 4 = 0) :
    (slotStart addr).toNat % 4 = 0 := by
  have bound := addr.isLt
  simp only [slotStart, batchSize, BitVec.toNat_sub, BitVec.toNat_ofNat]
  omega

/-- Where the near jump goes from any state. -/
theorem nearJump_exits
    {origin diff : Word}
    (aligned : origin.toNat % 4 = 0)
    (even : diff.toNat % 2 = 0)
    (after : List Inst)
    (state : State) :
    ∃ final,
      (environment origin aligned).Exits (nearJump diff ++ after) state
          (.left (origin + nearDistance diff) final) ∧
        final.mem = state.mem ∧
        ∀ register, register ≠ addressDestination ->
          final.get register = state.get register := by
  have exits := @Environment.exits_jump (environment origin aligned) state
    [Encoding.auipc addressDestination ((upperPart diff).setWidth 32)] after
    .zero addressDestination (((diff &&& 0xfff).setWidth 16).setWidth 12)
    (by simp [Encoding.auipc, Inst.isStraight])
    (environment_permits origin aligned) rfl
  simp only [applyAll_cons, applyAll_nil, Encoding.auipc, Inst.apply] at exits
  rw [jumpTarget, State.set_get_self _ _ (by decide), BitVec.add_assoc] at exits
  change Environment.Exits _ _ _
    (.left (origin + nearDistance diff &&& ~~~1) _) at exits
  rw [clear_lowest_bit] at exits
  · refine ⟨_, exits, rfl, ?_⟩
    intro register different
    rw [State.set_zero_get, State.set_get_of_ne _ _ different]
  · have evenDistance := nearDistance_even even
    rw [BitVec.toNat_add]
    omega

/-- The far jump goes to its address from any state. -/
theorem farJump_exits
    {origin target : Word}
    (aligned : origin.toNat % 4 = 0)
    (even : target.toNat % 2 = 0)
    (after : List Inst)
    (state : State) :
    ∃ final,
      (environment origin aligned).Exits (farJump target ++ after) state
          (.left target final) ∧
        final.mem = state.mem ∧
        ∀ register, register ≠ addressDestination ->
          final.get register = state.get register := by
  have exits := @Environment.exits_jump (environment origin aligned) state
    (loadImmediate target addressDestination) after .zero addressDestination 0
    (fun inst member => (target_of_mem_loadImmediate member).1)
    (environment_permits origin aligned) rfl
  rw [applyAll_loadImmediate (by decide), jumpTarget,
    State.set_get_self _ _ (by decide),
    show (0 : BitVec 12).signExtend 64 = 0#64 by decide, BitVec.add_zero,
    clear_lowest_bit even, ← List.singleton_append, ← List.append_assoc]
    at exits
  refine ⟨_, exits, rfl, ?_⟩
  intro register different
  rw [State.set_zero_get, State.set_get_of_ne _ _ different]

/-- A near jump that jumps to its target goes the right distance. -/
theorem JumpsTo.nearDistance_eq
    {words : CodeWords}
    {addr diff : Word}
    {rest : List Inst}
    (aligned : addr.toNat % 4 = 0)
    (even : diff.toNat % 2 = 0)
    (full : (nearJump diff ++ rest).length = batchSize)
    (held : HoldsCode words (slotStart addr) (nearJump diff ++ rest))
    (jumps : JumpsTo words addr (slotStart addr + diff)) :
    nearDistance diff = diff := by
  have startAligned := slotStart_aligned aligned
  obtain ⟨code, codeLength, codeHeld, exits⟩ := jumps
  obtain rfl := codeHeld.unique held (codeLength.trans full.symm)
  obtain ⟨_, exitsTarget, -⟩ := exits startAligned ⟨fun _ => 0, fun _ => 0⟩
  obtain ⟨_, exitsActual, -⟩ := nearJump_exits startAligned even rest
    ⟨fun _ => 0, fun _ => 0⟩
  obtain ⟨target, -⟩ := Exit.left.inj (exitsActual.unique exitsTarget)
  exact (BitVec.add_right_inj (slotStart addr)).mp target

/-- A distance at which the update goes wrong: the high part of the pc-relative
pair overflows, or the distance has no absolute value. -/
def OutOfReach (diff : Int) : Prop :=
  0x7ffff800 ≤ diff ∧ diff ≤ 0x7fffffff ∨ diff = -2 ^ 63

/-- The updated slot of a call of `reroute_static` jumps to the target, and no
other code changes, if and only if the distance is not out of reach. -/
theorem updateBasicBlock_jumps_iff
    {words : CodeWords}
    {addr absoluteAddress ptr : Word}
    (aligned : addr.toNat % 4 = 0)
    (targetAligned : absoluteAddress.toNat % 4 = 0)
    (callSite : HoldsCode words (slotStart addr) (appendEob ptr)) :
    (∃ after, updateBasicBlock words addr absoluteAddress = some after ∧
      JumpsTo after addr absoluteAddress ∧
        ∀ address,
          (∀ index < batchSize,
            address ≠ CodeMemory.pointer (slotStart addr) index) ->
          after address = words address) ↔
      ¬ OutOfReach (absoluteAddress - slotStart addr).toInt := by
  have startAligned := slotStart_aligned aligned
  obtain ⟨after, updates, held, kept⟩ :=
    @updateBasicBlock_spec words addr absoluteAddress (appendEob ptr) callSite
      rfl
  generalize diffEq : absoluteAddress - slotStart addr = diff at *
  have even : diff.toNat % 2 = 0 := by
    have bound := (slotStart addr).isLt
    rw [← diffEq, BitVec.toNat_sub]
    omega
  have sum : slotStart addr + diff = absoluteAddress := by
    rw [← diffEq, BitVec.add_comm, BitVec.sub_add_cancel]
  have near := isNear_iff diff
  have reaches := nearDistance_eq_iff diff
  have few := length_jumpCode_le (slotStart addr) absoluteAddress
  generalize restEq : (appendEob ptr).drop
    (jumpCode (slotStart addr) absoluteAddress).length = rest at *
  have full : (jumpCode (slotStart addr) absoluteAddress ++ rest).length =
      batchSize := by
    rw [← restEq, List.length_append, List.length_drop]
    change _ + (9 - _) = 9
    change _ ≤ 9 at few
    omega
  unfold jumpCode at held full
  rw [diffEq] at held full
  constructor
  · rintro ⟨other, updatesOther, jumps, -⟩ wrong
    obtain rfl : after = other :=
      Option.some.inj (updates.symm.trans updatesOther)
    have isNear : isNear diff = true := near.mpr (by
      rcases wrong with ⟨low, high⟩ | smallest
      · exact Or.inl ⟨by omega, high⟩
      · exact Or.inr smallest)
    rw [if_pos isNear] at held full
    rw [← sum] at jumps
    have inReach := reaches.mp (jumps.nearDistance_eq aligned even full held)
    rcases wrong with ⟨low, high⟩ | smallest <;> omega
  · intro fine
    refine ⟨after, updates, ⟨_, full, held, ?_⟩, kept⟩
    intro aligned state
    split
    · rename_i isNear
      have inReach : nearDistance diff = diff := reaches.mpr (by
        unfold OutOfReach at fine
        have range := near.mp isNear
        omega)
      have exits := nearJump_exits aligned even rest state
      rwa [inReach, sum] at exits
    · exact farJump_exits aligned (by omega) rest state

/-- Words of nothing but some code. -/
def wordsOf (start : Word) (code : List Inst) : CodeWords :=
  fun address => (code[(address - start).toNat / 4]?.map Inst.encode).getD 0

theorem holdsCode_wordsOf
    {start : Word}
    {code : List Inst}
    (short : code.length < 2 ^ 62) :
    HoldsCode (wordsOf start code) start code := by
  intro index inst found
  have bound := (List.getElem?_eq_some_iff.mp found).1
  have position : (CodeMemory.pointer start index - start).toNat / 4 =
      index := by
    rw [CodeMemory.pointer, BitVec.add_comm, BitVec.add_sub_cancel,
      BitVec.toNat_ofNat]
    omega
  rw [wordsOf, position, found]
  rfl

/-- A slot whose target is far away, but not in the other direction. -/
theorem updateBasicBlock_jumps_iff_sample :
    ∃ after, updateBasicBlock (wordsOf 0x10000 (appendEob 0)) 0x10024
        0x4000000000 = some after ∧
      JumpsTo after 0x10024 0x4000000000 ∧
        ∀ address,
          (∀ index < batchSize,
            address ≠ CodeMemory.pointer (slotStart 0x10024) index) ->
          after address = wordsOf 0x10000 (appendEob 0) address :=
  (updateBasicBlock_jumps_iff (by decide) (by decide)
    (@holdsCode_wordsOf 0x10000 (appendEob 0) (by decide))).mpr (by
      unfold OutOfReach
      decide)

/-- The distance to the target has its lower part in the last 2 KiB of the
positive range: the jump goes 4 GiB too low. -/
theorem updateBasicBlock_misses_target :
    ∃ words addr absoluteAddress ptr, addr.toNat % 4 = 0 ∧
      absoluteAddress.toNat % 4 = 0 ∧
      HoldsCode words (slotStart addr) (appendEob ptr) ∧
        ¬ ∃ after, updateBasicBlock words addr absoluteAddress = some after ∧
          JumpsTo after addr absoluteAddress := by
  refine ⟨wordsOf 0x10000 (appendEob 0), 0x10024, 0x8000f800, 0, by decide,
    by decide, @holdsCode_wordsOf 0x10000 (appendEob 0) (by decide), ?_⟩
  rintro ⟨after, updates, jumps⟩
  obtain ⟨other, updatesOther, held, -⟩ :=
    @updateBasicBlock_spec _ 0x10024 0x8000f800 (appendEob 0)
      (@holdsCode_wordsOf 0x10000 (appendEob 0) (by decide)) rfl
  obtain rfl : after = other :=
    Option.some.inj (updates.symm.trans updatesOther)
  have code : jumpCode (slotStart 0x10024) 0x8000f800 =
      nearJump 0x7ffff800 := rfl
  simp only [code] at held
  have reached := @JumpsTo.nearDistance_eq after 0x10024 0x7ffff800 _
    (by decide) (by decide) rfl held jumps
  exact absurd reached (by decide)

end CodeGenerator
end Oxtra

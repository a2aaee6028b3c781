import Oxtra.FlagEvaluation.Values

/-!
# What the flag routines compute

One lemma for each routine says which comparison of the stored values it
returns.
-/

namespace Oxtra

open RiscV
open Encoding
open Wrapped
open FlagInfo

namespace Stub

/-! ## Operands in the context -/

theorem load_carryValue0 (state : State) :
    state.mem.load
        (state.get .s11 + (carryValue0.setWidth 12).signExtend 64) 8 =
      carryValue state 0 := by
  simp [carryValue0, carryValue, carryValuesOffset, flagInfoOffset]

theorem load_carryValue1 (state : State) :
    state.mem.load
        (state.get .s11 + (carryValue1.setWidth 12).signExtend 64) 8 =
      carryValue state 1 := by
  simp [carryValue1, carryValue, carryValuesOffset, flagInfoOffset,
    BitVec.add_assoc]

theorem load_overflowValue0 (state : State) :
    state.mem.load
        (state.get .s11 + (overflowValue0.setWidth 12).signExtend 64) 8 =
      overflowValue state 0 := by
  simp [overflowValue0, overflowValue, overflowValuesOffset, flagInfoOffset]

theorem load_overflowValue1 (state : State) :
    state.mem.load
        (state.get .s11 + (overflowValue1.setWidth 12).signExtend 64) 8 =
      overflowValue state 1 := by
  simp [overflowValue1, overflowValue, overflowValuesOffset, flagInfoOffset,
    BitVec.add_assoc]

/-! ## Carry -/

theorem carryClear_yields {state : State} (canReturn : CanReturn state) :
    carryClear.Yields state false := by
  apply yields_straight rfl canReturn
  simp [addi, opImm, Inst.apply, OpImm.eval, bit]

theorem carrySet_yields {state : State} (canReturn : CanReturn state) :
    carrySet.Yields state true := by
  apply yields_straight rfl canReturn
  simp [addi, opImm, Inst.apply, OpImm.eval, bit]

theorem carryAdd_yields
    (width : Width)
    {state : State}
    (canReturn : CanReturn state) :
    (carryAdd width).Yields state
      (unsignedPart width (carryValue state 1) <
        unsignedPart width (carryValue state 0)) := by
  apply yields_straight (by cases width <;> rfl) canReturn
  simp [load, sltu, Inst.apply, Op.eval, BitVec.ult_eq_decide,
    effectiveAddress, unsignedLoad_toNat, load_carryValue0, load_carryValue1]

theorem bit_xor_one (flag : Bool) : bit flag ^^^ 1#64 = bit (!flag) := by
  cases flag <;> rfl

theorem carryAdc_yields
    (width : Width)
    {state : State}
    (canReturn : CanReturn state) :
    (carryAdc width).Yields state
      (unsignedPart width (carryValue state 1) ≤
        unsignedPart width (carryValue state 0)) := by
  apply yields_straight (by cases width <;> rfl) canReturn
  simp [load, sltu, xori, opImm, Inst.apply, Op.eval, OpImm.eval,
    BitVec.ult_eq_decide, effectiveAddress, unsignedLoad_toNat,
    load_carryValue0, load_carryValue1, bit_xor_one, ← decide_not]

theorem carryNeg_yields
    (width : Width)
    {state : State}
    (canReturn : CanReturn state) :
    (carryNeg width).Yields state
      (unsignedPart width (carryValue state 0) ≠ 0) := by
  apply yields_straight (by cases width <;> rfl) canReturn
  simp [load, snez, sltu, Inst.apply, Op.eval, BitVec.ult_eq_decide,
    effectiveAddress, unsignedLoad_toNat, load_carryValue0, Nat.pos_iff_ne_zero]

/-! ## Words and double words -/

theorem toInt_shiftLeft_eq_wrap (value : Word) (shift : Nat) :
    (value <<< shift).toInt = wrap 64 (value.toInt * 2 ^ shift) := by
  have low : ((value.toNat <<< shift : Nat) : Int) =
      value.toNat * 2 ^ shift := by
    rw [Nat.shiftLeft_eq]
    push_cast
    rfl
  rw [BitVec.toInt_shiftLeft, low, wrap, BitVec.toInt_eq_toNat_bmod,
    Int.bmod_mul_bmod]

theorem toInt_add_eq_wrap {bits : Nat} (first second : BitVec bits) :
    (first + second).toInt = wrap bits (first.toInt + second.toInt) :=
  BitVec.toInt_add first second

theorem toInt_sub_eq_wrap {bits : Nat} (first second : BitVec bits) :
    (first - second).toInt = wrap bits (first.toInt - second.toInt) :=
  BitVec.toInt_sub

theorem zero_ult (value : Word) :
    BitVec.ult 0#64 value = decide (value ≠ 0) := by
  have zero : value.toNat = 0 ↔ value = 0 :=
    BitVec.toNat_inj (y := (0 : Word))
  rw [BitVec.ult_eq_decide, decide_eq_decide, BitVec.toNat_ofNat,
    Nat.zero_mod, Nat.pos_iff_ne_zero, Ne, zero]

theorem snez_sub (first second : Word) :
    BitVec.ult 0#64 (first - second) = decide (first ≠ second) := by
  have equal : first - second = 0 ↔ first = second := sub_eq_zero
  rw [zero_ult, decide_eq_decide, Ne, Ne, equal]

/-- The sum in words is the sum in double words if it is a signed word. -/
theorem add_eq_addw_iff
    {first second : Word}
    (firstBound : -(2 ^ 31) ≤ first.toInt ∧ first.toInt ≤ 2 ^ 31)
    (secondBound : -(2 ^ 31) ≤ second.toInt ∧ second.toInt ≤ 2 ^ 31) :
    first + second = sext (first.setWidth 32 + second.setWidth 32) ↔
      Fits 32 (first.toInt + second.toInt) := by
  have wide : (first + second).toInt = first.toInt + second.toInt := by
    rw [toInt_add_eq_wrap]
    apply wrap_eq_of_fits (by decide)
    unfold Fits
    omega
  have narrow : (sext (first.setWidth 32 + second.setWidth 32)).toInt =
      wrap 32 (first.toInt + second.toInt) := by
    rw [toInt_sext, toInt_add_eq_wrap, toInt_setWidth_eq_wrap (by decide),
      toInt_setWidth_eq_wrap (by decide), wrap, wrap, wrap, wrap,
      ← Int.add_bmod]
  rw [← BitVec.toInt_inj, wide, narrow, eq_comm,
    wrap_eq_self_iff (by decide)]

theorem sub_eq_subw_iff
    {first second : Word}
    (firstBound : -(2 ^ 31) ≤ first.toInt ∧ first.toInt ≤ 2 ^ 31)
    (secondBound : -(2 ^ 31) ≤ second.toInt ∧ second.toInt ≤ 2 ^ 31) :
    first - second = sext (first.setWidth 32 - second.setWidth 32) ↔
      Fits 32 (first.toInt - second.toInt) := by
  have wide : (first - second).toInt = first.toInt - second.toInt := by
    rw [toInt_sub_eq_wrap]
    apply wrap_eq_of_fits (by decide)
    unfold Fits
    omega
  have narrow : (sext (first.setWidth 32 - second.setWidth 32)).toInt =
      wrap 32 (first.toInt - second.toInt) := by
    rw [toInt_sext, toInt_sub_eq_wrap, toInt_setWidth_eq_wrap (by decide),
      toInt_setWidth_eq_wrap (by decide), wrap, wrap, wrap, wrap,
      ← Int.sub_bmod]
  rw [← BitVec.toInt_inj, wide, narrow, eq_comm,
    wrap_eq_self_iff (by decide)]

theorem bit_inj {first second : Bool} :
    bit first = bit second ↔ first = second := by
  cases first <;> cases second <;> decide

theorem bit_not_decide_congr
    {first second : Prop}
    [Decidable first]
    [Decidable second]
    (equivalent : first ↔ second) :
    bit (!decide first) = bit (!decide second) := by
  rw [bit_inj, Bool.not_inj_iff, decide_eq_decide]
  exact equivalent

theorem fits_toInt (value : Word) : Fits 64 value.toInt := by
  rw [BitVec.toInt_eq_toNat_bmod]
  exact fits_wrap (by decide) _

/-- The sum of double words overflows if the sign of one operand does not
tell whether the sum is less than the other one. -/
theorem add_fits_iff (first second : Word) :
    bit (first.slt 0#64) = bit ((second + first).slt second) ↔
      Fits 64 (first.toInt + second.toInt) := by
  have overflows := add_overflows_iff (by decide) (fits_toInt first)
    (fits_toInt second)
  rw [bit_inj, BitVec.slt_eq_decide, BitVec.slt_eq_decide, decide_eq_decide,
    toInt_add_eq_wrap, BitVec.toInt_zero]
  exact (not_iff_not.mp overflows).symm

theorem sub_fits_iff (minuend subtrahend : Word) :
    bit (subtrahend.slt 0#64) = bit (minuend.slt (minuend - subtrahend)) ↔
      Fits 64 (minuend.toInt - subtrahend.toInt) := by
  have overflows := sub_overflows_iff (by decide) (fits_toInt minuend)
    (fits_toInt subtrahend)
  rw [bit_inj, BitVec.slt_eq_decide, BitVec.slt_eq_decide, decide_eq_decide,
    toInt_sub_eq_wrap, BitVec.toInt_zero]
  exact (not_iff_not.mp overflows).symm

/-! ## Overflow of short operands -/

/-- A short operand at the top of a word. -/
theorem toInt_shiftLeft_short
    {bits shift : Nat}
    {value : Word}
    (top : bits + shift = 32)
    (positive : 0 < bits)
    (lower : -2 ^ (bits - 1) ≤ value.toInt)
    (upper : value.toInt ≤ 2 ^ (bits - 1)) :
    (value <<< shift).toInt = value.toInt * 2 ^ shift ∧
      -(2 ^ 31) ≤ (value <<< shift).toInt ∧
      (value <<< shift).toInt ≤ 2 ^ 31 := by
  have scale : (2 ^ (bits - 1) * 2 ^ shift : Int) = 2 ^ 31 := by
    rw [← Int.pow_add]
    congr 1
    omega
  have scalePositive : (0 : Int) ≤ 2 ^ shift := by positivity
  have scaledLower := Int.mul_le_mul_of_nonneg_right lower scalePositive
  have scaledUpper := Int.mul_le_mul_of_nonneg_right upper scalePositive
  rw [Int.neg_mul, scale] at scaledLower
  rw [scale] at scaledUpper
  have wraps : (value <<< shift).toInt = value.toInt * 2 ^ shift := by
    rw [toInt_shiftLeft_eq_wrap]
    apply wrap_eq_of_fits (by decide)
    unfold Fits
    omega
  rw [wraps]
  exact ⟨rfl, scaledLower, scaledUpper⟩

theorem short_add_fits_iff
    {bits shift : Nat}
    {first second : Word}
    (top : bits + shift = 32)
    (positive : 0 < bits)
    (firstLower : -2 ^ (bits - 1) ≤ first.toInt)
    (firstUpper : first.toInt ≤ 2 ^ (bits - 1))
    (secondLower : -2 ^ (bits - 1) ≤ second.toInt)
    (secondUpper : second.toInt ≤ 2 ^ (bits - 1)) :
    first <<< shift + second <<< shift =
        sext ((first <<< shift).setWidth 32 +
          (second <<< shift).setWidth 32) ↔
      Fits bits (first.toInt + second.toInt) := by
  obtain ⟨firstValue, firstBound⟩ :=
    toInt_shiftLeft_short top positive firstLower firstUpper
  obtain ⟨secondValue, secondBound⟩ :=
    toInt_shiftLeft_short top positive secondLower secondUpper
  rw [add_eq_addw_iff firstBound secondBound, firstValue, secondValue,
    ← Int.add_mul, ← top, fits_mul_two_pow shift _ positive]

theorem short_sub_fits_iff
    {bits shift : Nat}
    {first second : Word}
    (top : bits + shift = 32)
    (positive : 0 < bits)
    (firstFits : Fits bits first.toInt)
    (secondFits : Fits bits second.toInt) :
    first <<< shift - second <<< shift =
        sext ((first <<< shift).setWidth 32 -
          (second <<< shift).setWidth 32) ↔
      Fits bits (first.toInt - second.toInt) := by
  obtain ⟨firstValue, firstBound⟩ :=
    toInt_shiftLeft_short top positive firstFits.1 firstFits.2.le
  obtain ⟨secondValue, secondBound⟩ :=
    toInt_shiftLeft_short top positive secondFits.1 secondFits.2.le
  rw [sub_eq_subw_iff firstBound secondBound, firstValue, secondValue,
    ← Int.sub_mul, ← top, fits_mul_two_pow shift _ positive]

/-! ## Overflow -/

theorem overflowClear_yields {state : State} (canReturn : CanReturn state) :
    overflowClear.Yields state false := carryClear_yields canReturn

theorem overflowSet_yields {state : State} (canReturn : CanReturn state) :
    overflowSet.Yields state true := carrySet_yields canReturn

theorem overflowAddPos_yields
    (width : Width)
    {state : State}
    (canReturn : CanReturn state) :
    (overflowAddPos width).Yields state
      (signedPart width (overflowValue state 1) <
        signedPart width (overflowValue state 0)) := by
  apply yields_straight (by cases width <;> rfl) canReturn
  simp [load, slt, Inst.apply, Op.eval, BitVec.slt_eq_decide,
    effectiveAddress, signedLoad_toInt, load_overflowValue0,
    load_overflowValue1]

theorem overflowAddNeg_yields
    (width : Width)
    {state : State}
    (canReturn : CanReturn state) :
    (overflowAddNeg width).Yields state
      (signedPart width (overflowValue state 0) <
        signedPart width (overflowValue state 1)) := by
  apply yields_straight (by cases width <;> rfl) canReturn
  simp [load, slt, Inst.apply, Op.eval, BitVec.slt_eq_decide,
    effectiveAddress, signedLoad_toInt, load_overflowValue0,
    load_overflowValue1]

/-! ## Overflow of sums and differences -/

/-- The operand in the first slot, as a routine loads it. -/
def firstOperand (width : Width) (state : State) : Word :=
  (signedLoad width).eval state.mem
    (state.get .s11 + (overflowValue0.setWidth 12).signExtend 64)

/-- The operand in the second slot, as a routine loads it. -/
def secondOperand (width : Width) (state : State) : Word :=
  (signedLoad width).eval state.mem
    (state.get .s11 + (overflowValue1.setWidth 12).signExtend 64)

theorem firstOperand_toInt (width : Width) (state : State) :
    (firstOperand width state).toInt =
      signedPart width (overflowValue state 0) := by
  rw [firstOperand, signedLoad_toInt, load_overflowValue0]

theorem secondOperand_toInt (width : Width) (state : State) :
    (secondOperand width state).toInt =
      signedPart width (overflowValue state 1) := by
  rw [secondOperand, signedLoad_toInt, load_overflowValue1]

theorem firstOperand_fits (width : Width) (state : State) :
    Fits width.bits (firstOperand width state).toInt := by
  rw [firstOperand_toInt]
  exact fits_signedPart width _

theorem secondOperand_fits (width : Width) (state : State) :
    Fits width.bits (secondOperand width state).toInt := by
  rw [secondOperand_toInt]
  exact fits_signedPart width _

theorem bits_add_top {width : Width} (short : width ≠ .double) :
    width.bits + (32 - width.bits) = 32 := by
  cases width <;> first | rfl | exact absurd rfl short

theorem overflowAdd_yields
    (width : Width)
    {state : State}
    (canReturn : CanReturn state) :
    (overflowAdd width).Yields state
      (!decide (Fits width.bits
        (signedPart width (overflowValue state 0) +
          signedPart width (overflowValue state 1)))) := by
  have firstFits := firstOperand_fits width state
  have secondFits := secondOperand_fits width state
  rw [← firstOperand_toInt, ← secondOperand_toInt]
  have shortFits := fun short => short_add_fits_iff (bits_add_top short)
    width.bits_pos firstFits.1 firstFits.2.le secondFits.1 secondFits.2.le
  cases width
  case double =>
    apply yields_straight rfl canReturn
    have fits := add_fits_iff (firstOperand .double state)
      (secondOperand .double state)
    simp [ld, load, add, sub, slt, slti, snez, sltu, opImm, Inst.apply,
      Op.eval, OpImm.eval, effectiveAddress, snez_sub]
    exact bit_not_decide_congr fits
  case byte | half | word =>
    apply yields_straight rfl canReturn
    have fits := shortFits (by decide)
    simp [Width.bits, Width.bytes, firstOperand, secondOperand,
      -BitVec.setWidth_shiftLeft_of_le] at fits
    simp [load, slli, shift, addw, add, sub, snez, sltu, shiftOperands,
      Inst.apply, Op.eval, OpW.eval, Shift.eval, effectiveAddress, snez_sub,
      -BitVec.setWidth_shiftLeft_of_le]
    exact bit_not_decide_congr fits

theorem overflowSub_yields
    (width : Width)
    {state : State}
    (canReturn : CanReturn state) :
    (overflowSub width).Yields state
      (!decide (Fits width.bits
        (signedPart width (overflowValue state 1) -
          signedPart width (overflowValue state 0)))) := by
  have firstFits := firstOperand_fits width state
  have secondFits := secondOperand_fits width state
  rw [← firstOperand_toInt, ← secondOperand_toInt]
  have shortFits := fun short => short_sub_fits_iff (bits_add_top short)
    width.bits_pos secondFits firstFits
  cases width
  case double =>
    apply yields_straight rfl canReturn
    have fits := sub_fits_iff (secondOperand .double state)
      (firstOperand .double state)
    simp [ld, load, sub, slt, slti, snez, sltu, opImm, Inst.apply,
      Op.eval, OpImm.eval, effectiveAddress, snez_sub]
    exact bit_not_decide_congr fits
  case byte | half | word =>
    apply yields_straight rfl canReturn
    have fits := shortFits (by decide)
    simp [Width.bits, Width.bytes, firstOperand, secondOperand,
      -BitVec.setWidth_shiftLeft_of_le] at fits
    simp [load, slli, shift, subw, sub, snez, sltu, shiftOperands,
      Inst.apply, Op.eval, OpW.eval, Shift.eval, effectiveAddress, snez_sub,
      -BitVec.setWidth_shiftLeft_of_le]
    exact bit_not_decide_congr fits

/-- One can be added to a short operand. -/
theorem secondOperand_succ
    {width : Width}
    (short : width ≠ .double)
    (state : State) :
    (secondOperand width state + 1#64).toInt =
      (secondOperand width state).toInt + 1 := by
  have fits := secondOperand_fits width state
  have wide : (2 : Int) ^ (width.bits - 1) ≤ 2 ^ 31 := by
    cases width <;> first | decide | exact absurd rfl short
  rw [toInt_add_eq_wrap]
  apply wrap_eq_of_fits (by decide)
  unfold Fits at fits ⊢
  rw [show (1#64).toInt = 1 by decide]
  omega

theorem overflowAdc_yields_short
    {width : Width}
    (short : width ≠ .double)
    {state : State}
    (canReturn : CanReturn state) :
    (overflowAdc width).Yields state
      (!decide (Fits width.bits
        (signedPart width (overflowValue state 0) +
          signedPart width (overflowValue state 1) + 1))) := by
  have firstFits := firstOperand_fits width state
  have secondFits := secondOperand_fits width state
  have succ := secondOperand_succ short state
  rw [← firstOperand_toInt, ← secondOperand_toInt]
  have fits := @short_add_fits_iff _ _ (firstOperand width state)
    (secondOperand width state + 1#64) (bits_add_top short) width.bits_pos
    firstFits.1 firstFits.2.le
    (by rw [succ]; exact secondFits.1.trans (by omega))
    (by rw [succ]; exact secondFits.2)
  rw [succ, ← Int.add_assoc] at fits
  cases width
  case double => exact absurd rfl short
  case byte | half | word =>
    apply yields_straight rfl canReturn
    simp [Width.bits, Width.bytes, firstOperand, secondOperand,
      -BitVec.setWidth_shiftLeft_of_le] at fits
    simp [load, slli, shift, addw, add, addi, sub, snez, sltu, opImm,
      shiftOperands, Inst.apply, Op.eval, OpW.eval, OpImm.eval, Shift.eval,
      effectiveAddress, snez_sub, -BitVec.setWidth_shiftLeft_of_le]
    exact bit_not_decide_congr fits

theorem ushiftRight_sign (value : Word) :
    value >>> 63 = bit (value.slt 0#64) := by
  have sign : value.slt 0#64 = value.msb := by
    rw [BitVec.slt_eq_decide, BitVec.msb_eq_toInt, BitVec.toInt_zero]
  apply BitVec.eq_of_getLsbD_eq
  intro index inside
  rw [sign, BitVec.getLsbD_ushiftRight]
  cases msb : value.msb
  all_goals
    rw [BitVec.msb_eq_getLsbD_last] at msb
    by_cases zero : index = 0
    · subst zero
      simpa [bit] using msb
    · rw [BitVec.getLsbD_of_ge _ _ (by omega)]
      simp [bit, zero]

/-- The code of the long routine up to its branch. -/
def longAdcSigns : List Inst :=
  [ld .t4 .s11 overflowValue0,
    ld .t5 .s11 overflowValue1,
    add .t6 .t5 .t4,
    addi .t6 .t6 1,
    srli .t4 .t4 63,
    srli .t5 .t5 63,
    srli .t6 .t6 63]

theorem longAdcSigns_values (pc : Word) (state : State) :
    let first := firstOperand .double state
    let second := secondOperand .double state
    let signs := applyAll pc state longAdcSigns
    signs.get .t4 = bit (first.slt 0#64) ∧
      signs.get .t5 = bit (second.slt 0#64) ∧
      signs.get .t6 = bit ((second + first + 1).slt 0#64) := by
  simp [longAdcSigns, ld, load, add, addi, srli, shift, opImm, Inst.apply,
    Op.eval, OpImm.eval, Shift.eval, effectiveAddress, ushiftRight_sign,
    firstOperand, secondOperand, signedLoad]

theorem bne_bit (first second : Bool) :
    Branch.bne.eval (bit first) (bit second) = (first != second) := by
  cases first <;> cases second <;> rfl

theorem bit_xor_bit (first second : Bool) :
    bit first ^^^ bit second = bit (first != second) := by
  cases first <;> cases second <;> rfl

/-- The branch goes to `overflow_clear`. -/
theorem run_longAdc_branch
    {signs : State}
    (canReturn : CanReturn signs)
    (differ : Branch.bne.eval (signs.get .t4) (signs.get .t5) = true) :
    environment.run (overflowAdc .double).code 5 9 signs =
      .exit (.left (signs.get .ra)
        ((signs.set .t4 0).set .zero (environment.address 2))) := by
  have fetch : (overflowAdc .double).code[9]? =
      some (Encoding.bne .t4 .t5 (-36)) := rfl
  have branches : environment.step (overflowAdc .double).code 9 signs =
      .next 0 signs := by
    rw [Environment.step_permitted fetch rfl]
    simp only [Encoding.bne, btype, Environment.execute, differ, if_true]
    rfl
  have clears : environment.step (overflowAdc .double).code 0 signs =
      .next 1 (signs.set .t4 0) := rfl
  have leaves := @step_ret (overflowAdc .double).code 1 (signs.set .t4 0)
    rfl (canReturn.congr (State.set_get_of_ne _ _ (by decide)))
  rw [State.set_get_of_ne _ _ (by decide)] at leaves
  simp only [Environment.run, branches, clears, leaves]

theorem run_longAdc_fall
    {signs : State}
    (canReturn : CanReturn signs)
    (same : Branch.bne.eval (signs.get .t4) (signs.get .t5) = false) :
    let value := signs.get .t6 ^^^ signs.get .t4
    environment.run (overflowAdc .double).code 5 9 signs =
      .exit (.left (signs.get .ra)
        ((signs.set .t4 value).set .zero (environment.address 12))) := by
  intro value
  have fetch : (overflowAdc .double).code[9]? =
      some (Encoding.bne .t4 .t5 (-36)) := rfl
  have falls : environment.step (overflowAdc .double).code 9 signs =
      .next 10 signs := by
    rw [Environment.step_permitted fetch rfl]
    simp [Encoding.bne, btype, Environment.execute, same]
  have computes : environment.step (overflowAdc .double).code 10 signs =
      .next 11 (signs.set .t4 value) := rfl
  have leaves := @step_ret (overflowAdc .double).code 11
    (signs.set .t4 value) rfl
    (canReturn.congr (State.set_get_of_ne _ _ (by decide)))
  rw [State.set_get_of_ne _ _ (by decide)] at leaves
  simp only [Environment.run, falls, computes, leaves]

theorem overflowAdc_yields_long
    {state : State}
    (canReturn : CanReturn state) :
    (overflowAdc .double).Yields state
      (!decide (Fits Width.double.bits
        (signedPart .double (overflowValue state 0) +
          signedPart .double (overflowValue state 1) + 1))) := by
  rw [← firstOperand_toInt, ← secondOperand_toInt]
  have scratchSigns : longAdcSigns.all isScratch = true := rfl
  have runs := @Environment.run_straight environment overflowClear.code
    longAdcSigns [Encoding.bne .t4 .t5 (-36), Encoding.xor .t4 .t6 .t4, ret]
    state
    (fun inst member => (Bool.and_eq_true_iff.mp
      (List.all_eq_true.mp scratchSigns inst member)).1)
    (Environment.PermitsEverything.permitsAll (fun _ _ => rfl) _ _)
  obtain ⟨firstSign, secondSign, sumSign⟩ :=
    longAdcSigns_values (environment.address overflowClear.code.length) state
  have kept := fun register =>
    @applyAll_get_of_isScratch longAdcSigns scratchSigns
      (environment.address overflowClear.code.length) state register
  have sameMemory := applyAll_mem_of_isScratch scratchSigns
    (environment.address overflowClear.code.length) state
  generalize applyAll _ state longAdcSigns = signs at *
  have firstFits := fits_toInt (firstOperand .double state)
  have secondFits := fits_toInt (secondOperand .double state)
  generalize firstOperand .double state = first at *
  generalize secondOperand .double state = second at *
  have canReturnSigns : CanReturn signs := canReturn.congr (kept .ra (by decide))
  -- Whatever is left in `t4` is what the call returns.
  have finish {value address : Word} {flag : Bool}
      (ends : environment.run (overflowAdc .double).code 5 9 signs =
        .exit (.left (signs.get .ra)
          ((signs.set .t4 value).set .zero address)))
      (isFlag : value = bit flag) :
      (overflowAdc .double).Yields state flag := by
    refine ⟨(signs.set .t4 value).set .zero address, ?_, ?_, sameMemory, ?_⟩
    · have whole := environment.run_add (overflowAdc .double).code 7 5 2 state
      have start : environment.run (overflowAdc .double).code 7 2 state =
          .next 9 signs := runs
      rw [start] at whole
      simp only [ends] at whole
      have exits : environment.run (overflowAdc .double).code
          (overflowAdc .double).code.length (overflowAdc .double).entry state =
            .exit (.left (signs.get .ra)
              ((signs.set .t4 value).set .zero address)) := whole
      rw [run, exits, kept .ra (by decide)]
      simp only [if_true]
    · rw [State.set_zero_get, State.set_get_self _ _ (by decide), isFlag]
    · intro register outside
      have different : register ≠ .t4 := by
        rintro rfl
        exact outside (by decide)
      rw [State.set_zero_get, State.set_get_of_ne _ _ different,
        kept register outside]
  have negative (value : Word) :
      value.slt 0#64 = decide (value.toInt < 0) := by
    rw [BitVec.slt_eq_decide, BitVec.toInt_zero]
  have compared : Branch.bne.eval (signs.get .t4) (signs.get .t5) =
      (first.slt 0#64 != second.slt 0#64) := by
    rw [firstSign, secondSign, bne_bit]
  by_cases same : first.toInt < 0 ↔ second.toInt < 0
  · have equal : first.slt 0#64 = second.slt 0#64 := by
      rw [negative, negative, decide_eq_decide]
      exact same
    have falls := run_longAdc_fall canReturnSigns
      (by rw [compared, equal, bne_self_eq_false])
    apply finish falls
    have sum : (second + first + 1).toInt =
        wrap 64 (first.toInt + second.toInt + 1) := by
      rw [BitVec.add_comm second, toInt_add_eq_wrap, toInt_add_eq_wrap,
        show (1 : Word).toInt = 1 by decide, wrap, wrap, Int.bmod_add_bmod]
      rfl
    have fits := fits_succ_iff_of_signs (by decide) firstFits secondFits same
    rw [sumSign, firstSign, bit_xor_bit, bit_inj, negative, negative, sum,
      Bool.bne_eq_xor, Bool.eq_iff_iff]
    simp only [Bool.xor_iff_ne, ne_eq, decide_eq_decide, Bool.not_eq_true',
      decide_eq_false_iff_not]
    exact not_congr fits
  · have different : (first.slt 0#64 != second.slt 0#64) = true := by
      rw [bne_iff_ne, negative, negative, Ne, decide_eq_decide]
      exact same
    have branches := run_longAdc_branch canReturnSigns
      (compared.trans different)
    apply finish branches
    have fits := fits_succ_of_signs firstFits secondFits same
    simp [bit, Width.bits, Width.bytes, fits]

theorem overflowAdc_yields
    (width : Width)
    {state : State}
    (canReturn : CanReturn state) :
    (overflowAdc width).Yields state
      (!decide (Fits width.bits
        (signedPart width (overflowValue state 0) +
          signedPart width (overflowValue state 1) + 1))) := by
  by_cases long : width = .double
  · subst long
    exact overflowAdc_yields_long canReturn
  · exact overflowAdc_yields_short long canReturn

/-! ## Overflow of increments, decrements and negations -/

/-- An operand at the top of a double word is less than its predecessor if
and only if the operand is the least one. -/
theorem slt_pred_top
    {bits shift : Nat}
    (top : bits + shift = 64)
    (positive : 0 < bits)
    (value : Word) :
    (value <<< shift).slt (value <<< shift + 18446744073709551615#64) =
      decide (wrap bits value.toNat = -2 ^ (bits - 1)) := by
  have minusOne : (18446744073709551615#64).toInt = -1 := by decide
  have least : (value <<< shift).slt
      (value <<< shift + 18446744073709551615#64) =
        decide ((value <<< shift).toInt = -2 ^ 63) := by
    rw [BitVec.slt_eq_decide, decide_eq_decide, toInt_add_eq_wrap, minusOne]
    exact lt_wrap_pred_iff (by decide) (fits_toInt _)
  have scale : (2 ^ 63 : Int) = 2 ^ (bits - 1) * 2 ^ shift := by
    rw [← Int.pow_add, show bits - 1 + shift = 63 by omega]
  have divides : 2 ^ bits ∣ 2 ^ 64 := Nat.pow_dvd_pow 2 (by omega)
  have low : wrap bits value.toInt = wrap bits value.toNat := by
    rw [BitVec.toInt_eq_toNat_bmod, wrap, wrap, Int.bmod_bmod_of_dvd divides]
  have moved : (value <<< shift).toInt =
      wrap bits value.toNat * 2 ^ shift := by
    rw [toInt_shiftLeft_eq_wrap, ← low, ← wrap_mul_two_pow shift _ positive,
      top]
  have nonzero : (2 ^ shift : Int) ≠ 0 := by positivity
  rw [least, decide_eq_decide, moved, scale, ← Int.neg_mul]
  exact Int.mul_eq_mul_right_iff nonzero

/-- The operand without sign in the first slot. -/
def unsignedOperand (width : Width) (state : State) : Word :=
  (unsignedLoad width).eval state.mem
    (state.get .s11 + (overflowValue0.setWidth 12).signExtend 64)

theorem unsignedOperand_toNat (width : Width) (state : State) :
    (unsignedOperand width state).toNat =
      unsignedPart width (overflowValue state 0) := by
  rw [unsignedOperand, unsignedLoad_toNat, load_overflowValue0]

theorem wrap_unsignedPart_add (width : Width) (value : Word) (number : Int) :
    wrap width.bits (unsignedPart width value + number) =
      wrap width.bits (signedPart width value + number) := by
  rw [signedPart, wrap, wrap, wrap, Int.bmod_add_bmod, unsignedPart,
    Int.natCast_mod, Int.emod_add_bmod]

theorem overflowDecNeg_yields
    (width : Width)
    {state : State}
    (canReturn : CanReturn state) :
    (overflowDecNeg width).Yields state
      (signedPart width (overflowValue state 0) =
        -2 ^ (width.bits - 1)) := by
  have operand : wrap width.bits (unsignedOperand width state).toNat =
      signedPart width (overflowValue state 0) := by
    have wrapped := wrap_unsignedPart_add width (overflowValue state 0) 0
    rw [Int.add_zero, Int.add_zero] at wrapped
    rw [unsignedOperand_toNat, wrapped]
    exact wrap_eq_of_fits width.bits_pos (fits_signedPart width _)
  rw [← operand]
  have least := fun top => @slt_pred_top width.bits (64 - width.bits) top
    width.bits_pos (unsignedOperand width state)
  cases width
  case byte | half | word =>
    apply yields_straight rfl canReturn
    simp [load, slli, shift, addi, slt, opImm, shiftOperand, Inst.apply,
      Op.eval, OpImm.eval, Shift.eval, effectiveAddress]
    exact congrArg bit (least rfl)
  case double =>
    apply yields_straight rfl canReturn
    have least := least rfl
    rw [show 64 - Width.double.bits = 0 from rfl, BitVec.shiftLeft_zero]
      at least
    simp [load, addi, slt, opImm, shiftOperand, Inst.apply, Op.eval,
      OpImm.eval, effectiveAddress]
    exact congrArg bit least

theorem overflowInc_yields
    (width : Width)
    {state : State}
    (canReturn : CanReturn state) :
    (overflowInc width).Yields state
      (!decide (Fits width.bits
        (signedPart width (overflowValue state 0) + 1))) := by
  have firstFits := fits_signedPart width (overflowValue state 0)
  have overflows := wrap_succ_eq_iff width.bits_pos firstFits
  have succ (short : width ≠ .double) :
      (unsignedOperand width state + 1#64).toNat =
        unsignedPart width (overflowValue state 0) + 1 := by
    have bound := unsignedPart_lt width (overflowValue state 0)
    have wide : 2 ^ width.bits ≤ 2 ^ 32 := by
      cases width <;> first | decide | exact absurd rfl short
    rw [BitVec.toNat_add, unsignedOperand_toNat, BitVec.toNat_ofNat]
    omega
  have least := fun top => @slt_pred_top width.bits (64 - width.bits) top
    width.bits_pos (unsignedOperand width state + 1#64)
  cases width
  case double =>
    apply yields_straight rfl canReturn
    have value : (firstOperand .double state + 1#64).slt
        (firstOperand .double state) = !decide (Fits Width.double.bits
          (signedPart .double (overflowValue state 0) + 1)) := by
      rw [← decide_not, BitVec.slt_eq_decide, decide_eq_decide,
        toInt_add_eq_wrap, firstOperand_toInt]
      exact wrap_add_lt_iff (by decide) firstFits (by decide) (by decide)
    simp [ld, load, addi, slt, opImm, Inst.apply, Op.eval, OpImm.eval,
      effectiveAddress]
    exact congrArg bit value
  case byte | half | word =>
    apply yields_straight rfl canReturn
    have value := least rfl
    rw [succ (by decide), Int.natCast_add, Int.natCast_one,
      wrap_unsignedPart_add, decide_eq_decide.mpr overflows, decide_not]
      at value
    simp [load, slli, shift, addi, slt, opImm, shiftOperand, Inst.apply,
      Op.eval, OpImm.eval, Shift.eval, effectiveAddress,
      -BitVec.shiftLeft_add_distrib]
    exact congrArg bit value

end Stub
end Oxtra

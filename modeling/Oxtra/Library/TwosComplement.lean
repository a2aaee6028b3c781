import Mathlib.Data.BitVec
import Mathlib.Tactic.LinearCombination
import Mathlib.Tactic.Positivity
import Mathlib.Tactic.Zify

/-!
# Products and quotients of bit vectors

Bit vectors stand for integers, signed or unsigned, and are divided with the
quotient rounded towards zero.  A product of longer bit vectors has the right
low bits, and a division of longer bit vectors has the right low bits of
quotient and remainder under a condition on its dividend.
-/

namespace TwosComplement

/-! ## Integers -/

section Integers

variable {width longer : Nat} (signed : Bool) (bits : BitVec width)

/-- The integer that a bit vector stands for. -/
def value : Int := if signed then bits.toInt else bits.toNat

/-- A longer bit vector that stands for the same integer. -/
def extend (longer : Nat) : BitVec longer :=
  if signed then bits.signExtend longer else bits.setWidth longer

@[simp] theorem value_extend (wider : width ≤ longer) :
    value signed (extend signed bits longer) = value signed bits := by
  cases signed with
  | false =>
      have small := Nat.pow_le_pow_right (by decide : 0 < 2) wider
      have bound := bits.isLt.trans_le small
      simp only [value, extend, Bool.false_eq_true, if_false,
        BitVec.toNat_setWidth, Nat.mod_eq_of_lt bound]
  | true =>
      simp only [value, extend, if_true]
      exact BitVec.toInt_signExtend_of_le wider

@[simp] theorem setWidth_extend (wider : width ≤ longer) :
    (extend signed bits longer).setWidth width = bits := by
  cases signed with
  | false =>
      simp only [extend, Bool.false_eq_true, if_false]
      rw [BitVec.setWidth_setWidth_of_le _ wider, BitVec.setWidth_eq]
  | true =>
      simp only [extend, if_true]
      apply BitVec.eq_of_getLsbD_eq
      intro index inside
      rw [BitVec.getLsbD_setWidth, BitVec.getLsbD_signExtend]
      simp [inside, inside.trans_le wider]

/-- All bits of an extension above its source are the same. -/
theorem extract_extend
    {low high : Nat}
    (above : width ≤ low)
    (inside : low + high ≤ longer) :
    (extend signed bits longer).extractLsb' low high =
      if signed = true ∧ bits.msb = true then BitVec.allOnes high else 0 := by
  apply BitVec.eq_of_getLsbD_eq
  intro index below
  have outside : ¬ low + index < width := by omega
  have within : low + index < longer := by omega
  rw [BitVec.getLsbD_extractLsb']
  cases signed with
  | false =>
      have upper : bits.getLsbD (low + index) = false :=
        BitVec.getLsbD_of_ge bits _ (by omega)
      simp [extend, BitVec.getLsbD_setWidth, upper]
  | true =>
      simp only [extend, if_true, true_and, BitVec.getLsbD_signExtend,
        outside, within, if_false]
      cases bits.msb <;> simp [below]

/-- The upper and the lower part of a longer bit vector. -/
theorem extend_append
    {high low : Nat}
    (upper : BitVec high)
    (lower : BitVec low)
    (positive : 0 < high) :
    extend signed (upper ++ lower) longer =
      extend signed upper longer <<< low + lower.setWidth longer := by
  have apart : extend signed upper longer <<< low &&& lower.setWidth longer =
      BitVec.ofNat longer 0 := by
    apply BitVec.eq_of_getLsbD_eq
    intro index inside
    simp only [BitVec.getLsbD_and, BitVec.getLsbD_shiftLeft,
      BitVec.getLsbD_setWidth, BitVec.getLsbD_zero]
    grind
  rw [BitVec.add_eq_or_of_and_eq_zero _ _ apart]
  apply BitVec.eq_of_getLsbD_eq
  intro index inside
  cases signed with
  | false =>
      simp only [extend, Bool.false_eq_true, if_false, BitVec.getLsbD_or,
        BitVec.getLsbD_shiftLeft, BitVec.getLsbD_setWidth,
        BitVec.getLsbD_append]
      grind
  | true =>
      simp only [extend, if_true, BitVec.getLsbD_or, BitVec.getLsbD_shiftLeft,
        BitVec.getLsbD_setWidth, BitVec.getLsbD_signExtend,
        BitVec.getLsbD_append, BitVec.msb_append]
      grind

theorem value_inj {first second : BitVec width} :
    value signed first = value signed second ↔ first = second := by
  cases signed with
  | false =>
      simp only [value, Bool.false_eq_true, if_false, Nat.cast_inj]
      exact BitVec.toNat_inj
  | true =>
      simp only [value, if_true]
      exact BitVec.toInt_inj

theorem value_eq_zero_iff :
    value signed bits = 0 ↔ bits = BitVec.ofNat width 0 := by
  have zero : value signed (BitVec.ofNat width 0) = 0 := by
    cases signed <;> simp [value]
  rw [← zero, value_inj]

theorem toNat_emod_two_pow (integer : Int) :
    ((integer % 2 ^ width).toNat : Int) = integer % 2 ^ width :=
  Int.toNat_of_nonneg (Int.emod_nonneg _ (by positivity))

/-- The low bits of an integer. -/
theorem setWidth_ofInt (shorter : longer ≤ width) (integer : Int) :
    (BitVec.ofInt width integer).setWidth longer =
      BitVec.ofInt longer integer := by
  apply BitVec.eq_of_toNat_eq
  have divides : (2 ^ longer : Int) ∣ 2 ^ width := pow_dvd_pow 2 shorter
  rw [BitVec.toNat_setWidth, BitVec.toNat_ofInt, BitVec.toNat_ofInt]
  zify
  rw [toNat_emod_two_pow, toNat_emod_two_pow, Int.emod_emod_of_dvd _ divides]

/-- Integers have the same low bits if their difference has none. -/
theorem ofInt_eq_iff (first second : Int) :
    BitVec.ofInt width first = BitVec.ofInt width second ↔
      (2 ^ width : Int) ∣ first - second := by
  rw [← BitVec.toNat_inj, BitVec.toNat_ofInt, BitVec.toNat_ofInt]
  zify
  rw [toNat_emod_two_pow, toNat_emod_two_pow,
    Int.emod_eq_emod_iff_emod_sub_eq_zero, ← Int.dvd_iff_emod_eq_zero]

/-- The extension of bits has the bits of their integer. -/
theorem extend_eq_ofInt :
    extend signed bits longer = BitVec.ofInt longer (value signed bits) := by
  cases signed with
  | false =>
      simp only [extend, value, Bool.false_eq_true, if_false]
      rw [BitVec.ofInt_natCast, BitVec.ofNat_toNat]
  | true => rfl

@[simp] theorem extend_self : extend signed bits width = bits := by
  cases signed <;> simp [extend]

theorem ofInt_value : BitVec.ofInt width (value signed bits) = bits := by
  rw [← extend_eq_ofInt, extend_self]

end Integers

/-! ## Products -/

section Products

variable {width : Nat} (signed : Bool) (first second : BitVec width)

/-- The low bits of a product of longer bit vectors. -/
theorem extend_mul_extend (longer : Nat) :
    extend signed first longer * extend signed second longer =
      BitVec.ofInt longer (value signed first * value signed second) := by
  rw [extend_eq_ofInt, extend_eq_ofInt, BitVec.ofInt_mul]

/-- A word has the low bits of a product if its two halves are right. -/
theorem halves_eq_iff
    {long : Nat}
    (word : BitVec long)
    (bits : BitVec (width + width)) :
    word.setWidth width = bits.setWidth width ∧
        (word >>> width).setWidth width = bits.extractLsb' width width ↔
      word.setWidth (width + width) = bits := by
  constructor
  · rintro ⟨low, high⟩
    apply BitVec.eq_of_getLsbD_eq
    intro index inside
    rw [BitVec.getLsbD_setWidth]
    by_cases below : index < width
    · have bit := congrArg (fun bits => bits.getLsbD index) low
      simp only [BitVec.getLsbD_setWidth, below, decide_true, Bool.true_and]
        at bit
      simp [inside, bit]
    · have bit := congrArg (fun bits => bits.getLsbD (index - width)) high
      simp only [BitVec.getLsbD_setWidth, BitVec.getLsbD_ushiftRight,
        BitVec.getLsbD_extractLsb', (by omega : index - width < width),
        (by omega : width + (index - width) = index), decide_true,
        Bool.true_and] at bit
      simp [inside, bit]
  · rintro rfl
    constructor
    · rw [BitVec.setWidth_setWidth_of_le _ (by omega)]
    · apply BitVec.eq_of_getLsbD_eq
      intro index inside
      simp only [BitVec.getLsbD_setWidth, BitVec.getLsbD_ushiftRight,
        BitVec.getLsbD_extractLsb']
      grind

/-- Only the low bits of the factors count for those of their product. -/
theorem setWidth_mul_eq
    {long : Nat}
    (shorter : width ≤ long)
    {firstLong secondLong : BitVec long}
    (firstLow : firstLong.setWidth width = first)
    (secondLow : secondLong.setWidth width = second) :
    (firstLong * secondLong).setWidth width =
      BitVec.ofInt width (value signed first * value signed second) := by
  rw [BitVec.setWidth_mul _ _ shorter, firstLow, secondLow, BitVec.ofInt_mul,
    ofInt_value, ofInt_value]

/-- The product with another factor has the same low bits if and only if the
difference has none of them. -/
theorem setWidth_mul_extend_iff
    {double long : Nat}
    (fits : double ≤ long)
    (other : BitVec long) :
    (other * extend signed second long).setWidth double =
        BitVec.ofInt double (value signed first * value signed second) ↔
      (2 ^ double : Int) ∣
        (other.toNat - value signed first) * value signed second := by
  have word : other = BitVec.ofInt long other.toNat := by
    rw [BitVec.ofInt_natCast, BitVec.ofNat_toNat, BitVec.setWidth_eq]
  rw [extend_eq_ofInt, sub_mul, ← ofInt_eq_iff]
  nth_rewrite 1 [word]
  rw [← BitVec.ofInt_mul, setWidth_ofInt fits]

end Products

/-! ## Quotients -/

section Quotients

variable {width : Nat} (signed : Bool) (dividend divisor : BitVec width)

/-- The quotient of a division, rounded towards zero. -/
def quotient : BitVec width :=
  if signed then dividend.sdiv divisor else dividend / divisor

def remainder : BitVec width :=
  if signed then dividend.srem divisor else dividend % divisor

theorem quotient_eq :
    quotient signed dividend divisor =
      BitVec.ofInt width
        ((value signed dividend).tdiv (value signed divisor)) := by
  cases signed with
  | false =>
      simp only [quotient, value, Bool.false_eq_true, if_false]
      rw [← Int.ofNat_tdiv, ← BitVec.toNat_udiv, BitVec.ofInt_natCast,
        BitVec.ofNat_toNat, BitVec.setWidth_eq]
  | true =>
      simp only [quotient, value, if_true]
      apply BitVec.eq_of_toInt_eq
      rw [BitVec.toInt_sdiv, BitVec.toInt_ofInt]

theorem remainder_eq :
    remainder signed dividend divisor =
      BitVec.ofInt width
        ((value signed dividend).tmod (value signed divisor)) := by
  cases signed with
  | false =>
      simp only [remainder, value, Bool.false_eq_true, if_false]
      rw [← Int.ofNat_tmod, ← BitVec.toNat_umod, BitVec.ofInt_natCast,
        BitVec.ofNat_toNat, BitVec.setWidth_eq]
  | true =>
      simp only [remainder, value, if_true]
      rw [← BitVec.toInt_srem, BitVec.ofInt_toInt]

end Quotients

/-! ## Quotients that fit -/

section Ranges

/-- The integer is one of a bit vector of some width. -/
def Fits (signed : Bool) (width : Nat) (integer : Int) : Prop :=
  if signed then -2 ^ (width - 1) ≤ integer ∧ integer < 2 ^ (width - 1)
  else 0 ≤ integer ∧ integer < 2 ^ width

/-- The dividend is so small, compared with the divisor, that the quotient
fits. -/
def QuotientInRange
    (signed : Bool)
    (width : Nat)
    (dividend divisor : Int) : Prop :=
  if signed then
    -((2 ^ (width - 1) + 1) * |divisor|) < dividend * divisor.sign ∧
      dividend * divisor.sign < 2 ^ (width - 1) * |divisor|
  else dividend < 2 ^ width * divisor

instance (signed : Bool) (width : Nat) (integer : Int) :
    Decidable (Fits signed width integer) := by
  unfold Fits
  infer_instance

instance (signed : Bool) (width : Nat) (dividend divisor : Int) :
    Decidable (QuotientInRange signed width dividend divisor) := by
  unfold QuotientInRange
  infer_instance

/-- A bound of a quotient is one of the dividend. -/
theorem tdiv_lt_iff
    {dividend divisor bound : Int}
    (divisorPos : 0 < divisor)
    (boundPos : 0 < bound) :
    dividend.tdiv divisor < bound ↔ dividend < bound * divisor := by
  refine ⟨Int.lt_mul_of_tdiv_lt divisorPos, fun below => ?_⟩
  by_contra reached
  have atLeast : bound * divisor ≤ dividend.tdiv divisor * divisor :=
    mul_le_mul_of_nonneg_right (not_lt.mp reached) divisorPos.le
  have positive : 0 ≤ dividend := by
    by_contra negative
    have quotient : dividend.tdiv divisor ≤ 0 := by
      have opposite := Int.tdiv_nonneg (by omega : 0 ≤ -dividend)
        divisorPos.le
      rw [Int.neg_tdiv] at opposite
      omega
    omega
  have whole := Int.tdiv_mul_add_tmod dividend divisor
  have rest := Int.tmod_nonneg divisor positive
  omega

/-- The sign of the divisor may be moved to the dividend. -/
theorem tdiv_eq_tdiv_abs (dividend divisor : Int) :
    dividend.tdiv divisor = (dividend * divisor.sign).tdiv |divisor| := by
  rcases lt_trichotomy divisor 0 with negative | rfl | positive
  · rw [Int.sign_eq_neg_one_of_neg negative, abs_of_neg negative, mul_neg_one,
      Int.neg_tdiv_neg]
  · simp
  · rw [Int.sign_eq_one_of_pos positive, abs_of_pos positive, mul_one]

theorem fits_iff
    {signed : Bool}
    {width : Nat}
    {dividend divisor : Int}
    (nonzero : divisor ≠ 0)
    (unsigned : signed = false -> 0 ≤ dividend ∧ 0 ≤ divisor) :
    Fits signed width (dividend.tdiv divisor) ↔
      QuotientInRange signed width dividend divisor := by
  cases signed with
  | false =>
      obtain ⟨nonneg, divisorNonneg⟩ := unsigned rfl
      have positive : 0 < divisor := by omega
      simp only [Fits, QuotientInRange, Bool.false_eq_true, if_false,
        Int.tdiv_nonneg nonneg divisorNonneg, true_and]
      exact tdiv_lt_iff positive (by positivity)
  | true =>
      have positive : 0 < |divisor| := abs_pos.mpr nonzero
      simp only [Fits, QuotientInRange, if_true]
      rw [tdiv_eq_tdiv_abs, ← tdiv_lt_iff positive (by positivity), neg_lt,
        ← tdiv_lt_iff positive (by positivity), Int.neg_tdiv]
      constructor <;> rintro ⟨lower, upper⟩ <;> exact ⟨by omega, upper⟩

end Ranges

/-! ## Dividends with the same quotient -/

section Congruence

variable {dividend other divisor modulus : Int}

/-- A remainder has the sign of its dividend. -/
theorem tmod_pos_iff (rest : dividend.tmod divisor ≠ 0) :
    0 < dividend.tmod divisor ↔ 0 ≤ dividend := by
  constructor
  · intro positive
    by_contra negative
    have opposite := Int.tmod_nonneg divisor (by omega : 0 ≤ -dividend)
    rw [Int.neg_tmod] at opposite
    omega
  · intro nonneg
    have positive := Int.tmod_nonneg divisor nonneg
    omega

/-- A multiple of the divisor adds to the quotient if the rounding stays the
same. -/
theorem tdiv_tmod_add
    (nonzero : divisor ≠ 0)
    {factor : Int}
    (sum : other = dividend + divisor * factor)
    (rounded : divisor ∣ dividend ∨ (0 ≤ other ↔ 0 ≤ dividend)) :
    other.tdiv divisor = dividend.tdiv divisor + factor ∧
      other.tmod divisor = dividend.tmod divisor := by
  have whole := Int.tdiv_mul_add_tmod dividend divisor
  have complete : dividend.tmod divisor +
      divisor * (dividend.tdiv divisor + factor) = other := by
    linear_combination whole - sum
  rcases rounded with ⟨exact, rfl⟩ | same
  · rw [sum, ← mul_add, Int.mul_tdiv_cancel_left _ nonzero,
      Int.mul_tdiv_cancel_left _ nonzero, Int.mul_tmod_right,
      Int.mul_tmod_right]
    exact ⟨rfl, rfl⟩
  · rcases le_or_gt 0 dividend with nonneg | negative
    · have own := (Int.tdiv_tmod_unique nonneg nonzero).mp ⟨rfl, rfl⟩
      exact (Int.tdiv_tmod_unique (same.mpr nonneg) nonzero).mpr
        ⟨complete, own.2⟩
    · have own := (Int.tdiv_tmod_unique' negative.le nonzero).mp ⟨rfl, rfl⟩
      exact (Int.tdiv_tmod_unique' (by omega) nonzero).mpr ⟨complete, own.2⟩

/-- Another dividend has the same quotient and remainder up to some modulus if
and only if it differs by a multiple of the product of divisor and modulus, and
both are rounded in the same direction. -/
theorem tdiv_tmod_congr_iff
    (nonzero : divisor ≠ 0)
    (close : |other.tmod divisor - dividend.tmod divisor| < modulus) :
    (modulus ∣ other.tdiv divisor - dividend.tdiv divisor ∧
        modulus ∣ other.tmod divisor - dividend.tmod divisor) ↔
      divisor * modulus ∣ other - dividend ∧
        (divisor ∣ dividend ∨ (0 ≤ other ↔ 0 ≤ dividend)) := by
  constructor
  · rintro ⟨⟨factor, quotients⟩, remainders⟩
    have whole := Int.tdiv_mul_add_tmod dividend divisor
    have otherWhole := Int.tdiv_mul_add_tmod other divisor
    have same : other.tmod divisor - dividend.tmod divisor = 0 :=
      Int.eq_zero_of_abs_lt_dvd remainders close
    refine ⟨⟨factor, ?_⟩, ?_⟩
    · linear_combination whole - otherWhole + divisor * quotients + same
    · by_cases exact : dividend.tmod divisor = 0
      · exact Or.inl (Int.dvd_of_tmod_eq_zero exact)
      · have rest : other.tmod divisor ≠ 0 := by omega
        right
        rw [← tmod_pos_iff exact, ← tmod_pos_iff rest]
        omega
  · rintro ⟨⟨factor, difference⟩, rounded⟩
    obtain ⟨quotients, remainders⟩ := @tdiv_tmod_add dividend other divisor
      nonzero (modulus * factor) (by linear_combination difference) rounded
    rw [quotients, remainders, add_sub_cancel_left, sub_self]
    exact ⟨dvd_mul_right _ _, dvd_zero _⟩

end Congruence

/-! ## Division of longer bit vectors -/

section Longer

variable {width : Nat} {signed : Bool} {divisor : BitVec width}

theorem value_nonneg (unsigned : signed = false) (bits : BitVec width) :
    0 ≤ value signed bits := by
  subst unsigned
  simp only [value, Bool.false_eq_true, if_false]
  positivity

/-- The magnitude of a remainder. -/
theorem abs_tmod_lt (dividend : Int) {divisor : Int} (nonzero : divisor ≠ 0) :
    |dividend.tmod divisor| < |divisor| := by
  have positive : 0 < divisor.natAbs := Int.natAbs_pos.mpr nonzero
  have bound := Nat.mod_lt dividend.natAbs positive
  rw [← Int.natAbs_tmod] at bound
  rw [Int.abs_eq_natAbs, Int.abs_eq_natAbs]
  exact_mod_cast bound

/-- Remainders by a divisor of some width are no further apart. -/
theorem abs_tmod_sub_tmod_lt
    {dividend other : Int}
    (nonzero : divisor ≠ 0)
    (unsigned : signed = false -> 0 ≤ dividend ∧ 0 ≤ other) :
    |other.tmod (value signed divisor) - dividend.tmod (value signed divisor)| <
      2 ^ width := by
  have notZero : value signed divisor ≠ 0 := by
    rw [ne_eq, value_eq_zero_iff]
    exact nonzero
  have first := abs_tmod_lt dividend notZero
  have second := abs_tmod_lt other notZero
  cases signed with
  | false =>
      obtain ⟨nonneg, otherNonneg⟩ := unsigned rfl
      have firstNonneg := Int.tmod_nonneg (value false divisor) nonneg
      have secondNonneg := Int.tmod_nonneg (value false divisor) otherNonneg
      have bound : value false divisor < 2 ^ width := by
        simp only [value, Bool.false_eq_true, if_false]
        exact_mod_cast divisor.isLt
      have divisorNonneg := value_nonneg rfl divisor
      rw [abs_of_nonneg (by assumption), abs_of_nonneg (by assumption)]
        at first second
      rw [abs_lt]
      omega
  | true =>
      have positive : 0 < width := by
        by_contra empty
        have none : width = 0 := by omega
        subst none
        exact nonzero (Subsingleton.elim _ _)
      have double : (2 : Int) ^ width = 2 * 2 ^ (width - 1) := by
        rw [← pow_succ', Nat.sub_add_cancel positive]
      have lower := BitVec.le_toInt divisor
      have upper := @BitVec.toInt_lt width divisor
      have bound : |value true divisor| ≤ 2 ^ (width - 1) := by
        simp only [value, if_true]
        rw [abs_le]
        exact ⟨lower, by omega⟩
      have apart := abs_sub (other.tmod (value true divisor))
        (dividend.tmod (value true divisor))
      omega

/-- A division of longer bit vectors leaves the low bits of quotient and
remainder if and only if its dividend is close enough to the right one. -/
theorem division_iff
    {double long : Nat}
    (shorter : width ≤ long)
    (nonzero : divisor ≠ 0)
    (dividend : BitVec double)
    (word : BitVec long) :
    let extended := extend signed divisor long
    let right := value signed dividend
    let divisorValue := value signed divisor
    ((quotient signed word extended).setWidth width =
        BitVec.ofInt width (right.tdiv divisorValue) ∧
      (remainder signed word extended).setWidth width =
        BitVec.ofInt width (right.tmod divisorValue)) ↔
      divisorValue * 2 ^ width ∣ value signed word - right ∧
        (divisorValue ∣ right ∨ (0 ≤ value signed word ↔ 0 ≤ right)) := by
  intro extended right divisorValue
  have notZero : divisorValue ≠ 0 := by
    rw [ne_eq, value_eq_zero_iff]
    exact nonzero
  rw [quotient_eq, remainder_eq, value_extend _ _ shorter,
    setWidth_ofInt shorter, setWidth_ofInt shorter, ofInt_eq_iff, ofInt_eq_iff]
  apply tdiv_tmod_congr_iff notZero
  exact abs_tmod_sub_tmod_lt nonzero fun unsigned =>
    ⟨value_nonneg unsigned _, value_nonneg unsigned _⟩

end Longer

end TwosComplement

import Mathlib.Data.BitVec

/-!
# Rotations of bit vectors

A rotation is made of two shifts in opposite directions.  If the operand is in
the low bits of a word, the shift to the left may be one of the word, and the
shift to the right has to be kept from the bits above the operand.
-/

namespace BitVec

/-! ## Rotations made of shifts -/

section Shifts

variable {width : Nat} (value : BitVec width)

/-- Two shifts that move by the width altogether, or not at all, rotate to the
left. -/
theorem or_shifts_eq_rotateLeft
    {up down : Nat}
    (opposite : up + down = width ∨ up = 0 ∧ down = 0) :
    value <<< up ||| value >>> down = value.rotateLeft up := by
  rcases opposite with rfl | ⟨rfl, rfl⟩
  · rw [rotateLeft, rotateLeftAux]
    rcases Nat.eq_zero_or_pos down with rfl | positive
    · simp [ushiftRight_eq_zero (le_refl up)]
      exact (or_zero).symm
    · rw [Nat.mod_eq_of_lt (by omega), Nat.add_sub_cancel_left]
  · rw [rotateLeft, rotateLeftAux]
    simp [ushiftRight_eq_zero (le_refl width)]

/-- The same shifts rotate to the right. -/
theorem or_shifts_eq_rotateRight
    {up down : Nat}
    (opposite : up + down = width ∨ up = 0 ∧ down = 0) :
    value <<< up ||| value >>> down = value.rotateRight down := by
  rw [or_comm]
  rcases opposite with rfl | ⟨rfl, rfl⟩
  · rw [rotateRight, rotateRightAux]
    rcases Nat.eq_zero_or_pos up with rfl | positive
    · simp [ushiftRight_eq_zero (by omega : 0 + down ≤ down)]
    · rw [Nat.mod_eq_of_lt (by omega), Nat.add_sub_cancel]
  · rw [rotateRight, rotateRightAux]
    simp

/-- The amount of a rotation counts up to the width. -/
theorem rotateRight_getLsbD
    (count : Nat)
    {index : Nat}
    (inside : index < width) :
    (value.rotateRight count).getLsbD index =
      value.getLsbD ((index + count) % width) := by
  have positive : 0 < width := by omega
  have reduced := Nat.mod_lt count positive
  rw [getLsbD_rotateRight, ← Nat.add_mod_mod]
  by_cases below : index < width - count % width
  · have place : (index + count % width) % width = count % width + index := by
      rw [Nat.mod_eq_of_lt (by omega), Nat.add_comm]
    rw [decide_eq_true below, place]
    rfl
  · have place : (index + count % width) % width =
        index - (width - count % width) := by
      rw [Nat.mod_eq_sub_mod (by omega), Nat.mod_eq_of_lt (by omega)]
      omega
    rw [decide_eq_false below, place]
    simp [inside]

end Shifts

/-! ## Operands in words -/

section Words

variable {width bits : Nat} (word : BitVec width)

/-- Shifts to the left are ones of the operand. -/
theorem setWidth_shiftLeft_of_narrower
    (narrower : bits ≤ width)
    (count : Nat) :
    (word <<< count).setWidth bits = word.setWidth bits <<< count := by
  apply eq_of_getLsbD_eq
  intro index inside
  simp only [getLsbD_setWidth, getLsbD_shiftLeft, inside, decide_true,
    Bool.true_and]
  rw [decide_eq_true (by omega : index < width),
    decide_eq_true (by omega : index - count < bits)]
  simp

/-- An operand that is moved to the top of the word loses what was above
it. -/
theorem shiftLeft_ushiftRight_top
    (narrower : bits ≤ width)
    (count : Nat) :
    word <<< (width - bits) >>> (width - bits + count) =
      (word.setWidth bits >>> count).setWidth width := by
  apply eq_of_getLsbD_eq
  intro index inside
  have place : width - bits + count + index - (width - bits) =
      count + index := by omega
  have above : ¬ width - bits + count + index < width - bits := by omega
  have same : width - bits + count + index < width ↔ count + index < bits := by
    omega
  rw [getLsbD_ushiftRight, getLsbD_shiftLeft, place, decide_eq_false above]
  simp [same, inside]

/-- The bits that a shift to the left has moved out of the operand are those
that a shift of the operand to the right leaves. -/
theorem setWidth_shiftLeft_ushiftRight
    {count : Nat}
    (value : BitVec bits)
    (inside : count ≤ bits)
    (space : bits + count ≤ width) :
    ((value.setWidth width <<< count) >>> bits).setWidth bits =
      value >>> (bits - count) := by
  apply eq_of_getLsbD_eq
  intro index below
  simp only [getLsbD_setWidth, getLsbD_ushiftRight, getLsbD_shiftLeft, below,
    decide_true, Bool.true_and]
  have place : bits + index - count = bits - count + index := by omega
  rw [place, decide_eq_false (by omega : ¬ bits + index < count)]
  by_cases moved : bits + index < width
  · simp [moved, (by omega : bits - count + index < width)]
  · simp [moved, getLsbD_of_ge value (bits - count + index) (by omega)]

/-- The highest bits of an operand, cut out of a shift of the word. -/
theorem setWidth_ushiftRight_high
    {count : Nat}
    (inside : count ≤ bits) :
    ((word >>> (bits - count)).setWidth count).setWidth bits =
      word.setWidth bits >>> (bits - count) := by
  apply eq_of_getLsbD_eq
  intro index below
  simp only [getLsbD_setWidth, getLsbD_ushiftRight, below, decide_true,
    Bool.true_and]
  have same : bits - count + index < bits ↔ index < count := by omega
  simp only [same]

/-- A shift of the whole word to the right brings in the bits above the
operand.  The rotation is right if these are in the operand as well. -/
theorem setWidth_ushiftRight_or_eq_rotateRight_iff
    {count : Nat}
    (inside : count ≤ bits) :
    word.setWidth bits <<< (bits - count) ||| (word >>> count).setWidth bits =
        (word.setWidth bits).rotateRight count ↔
      ∀ index < count, word.getLsbD (bits + index) = true ->
        word.getLsbD index = true := by
  rw [← or_shifts_eq_rotateRight _
    (Or.inl (by omega : bits - count + count = bits))]
  have moved : ∀ index, index < bits ->
      (word.setWidth bits <<< (bits - count) |||
          (word >>> count).setWidth bits).getLsbD index =
        (!decide (index < bits - count) &&
            word.getLsbD (index - (bits - count)) ||
          word.getLsbD (count + index)) := by
    intro index below
    simp [below]
  have right : ∀ index, index < bits ->
      (word.setWidth bits <<< (bits - count) |||
          word.setWidth bits >>> count).getLsbD index =
        (!decide (index < bits - count) &&
            word.getLsbD (index - (bits - count)) ||
          decide (count + index < bits) && word.getLsbD (count + index)) := by
    intro index below
    simp [below]
  constructor
  · intro same index below above
    have bit := congrArg (getLsbD · (bits - count + index)) same
    have inner : bits - count + index < bits := by omega
    have outer : ¬ bits + index < bits := by omega
    have place : count + (bits - count + index) = bits + index := by omega
    simp only [moved _ inner, right _ inner, place, outer, above] at bit
    simpa using bit.symm
  · intro within
    apply eq_of_getLsbD_eq
    intro index below
    rw [moved index below, right index below]
    by_cases own : count + index < bits
    · simp [own]
    · have bit := within (index - (bits - count)) (by omega)
      have place : bits + (index - (bits - count)) = count + index := by omega
      rw [place] at bit
      rw [decide_eq_false own, decide_eq_false
        (by omega : ¬ index < bits - count)]
      cases above : word.getLsbD (count + index) with
      | false => simp
      | true => simp [bit above]

/-- A shift to the right by more than the operand has moves bits from above to
all places of it. -/
theorem setWidth_ushiftRight_eq_rotateRight_iff (count : Nat) :
    (word >>> count).setWidth bits =
        (word.setWidth bits).rotateRight count ↔
      ∀ index < bits, word.getLsbD (count + index) =
        word.getLsbD ((count + index) % bits) := by
  have moved : ∀ index, index < bits ->
      ((word >>> count).setWidth bits).getLsbD index =
        word.getLsbD (count + index) := by
    intro index below
    simp [below]
  have right : ∀ index, index < bits ->
      ((word.setWidth bits).rotateRight count).getLsbD index =
        word.getLsbD ((count + index) % bits) := by
    intro index below
    have reduced := Nat.mod_lt (index + count) (by omega : 0 < bits)
    rw [rotateRight_getLsbD _ _ below, Nat.add_comm index, getLsbD_setWidth]
    rw [Nat.add_comm] at reduced
    simp [reduced]
  constructor
  · intro same index below
    rw [← moved index below, same, right index below]
  · intro same
    apply eq_of_getLsbD_eq
    intro index below
    rw [moved index below, right index below, same index below]

end Words

end BitVec

import Mathlib.Data.BitVec

/-!
# Shifts of bit vectors

Shifts of a word that has an operand in its low bits.  A shift to the left is
one of the operand.  A shift to the right moves the bits above the operand into
it, and is one of the operand if they are what it is filled up with.
-/

/-- The shifts of a bit vector. -/
inductive ShiftDirection where
  | left
  | right
  | arithmeticRight
  deriving DecidableEq, Repr

namespace ShiftDirection

/-! ## Results -/

section Results

variable {width : Nat} (value : BitVec width)

/-- The result of a shift. -/
def result (count : Nat) : ShiftDirection -> BitVec width
  | left => value <<< count
  | right => value >>> count
  | arithmeticRight => value.sshiftRight count

/-- The bit that a shift to the right fills up with. -/
def fill : ShiftDirection -> Bool
  | left | right => false
  | arithmeticRight => value.msb

/-- A bit of an operand that is filled up. -/
def filledBit (direction : ShiftDirection) (index : Nat) : Bool :=
  if index < width then value.getLsbD index else direction.fill value

theorem result_getLsbD
    {direction : ShiftDirection}
    (rightwards : direction ≠ left)
    (count : Nat)
    {index : Nat}
    (inside : index < width) :
    (direction.result value count).getLsbD index =
      direction.filledBit value (count + index) := by
  cases direction with
  | left => exact absurd rfl rightwards
  | right =>
      simp only [result, filledBit, fill, BitVec.getLsbD_ushiftRight]
      split
      · rfl
      · exact BitVec.getLsbD_of_ge _ _ (by omega)
  | arithmeticRight =>
      have notAbove : ¬ width ≤ index := by omega
      simp [result, filledBit, fill, BitVec.getLsbD_sshiftRight, notAbove]

/-- Shifts to the left commute with truncation. -/
theorem setWidth_result_left
    {narrow : Nat}
    (narrower : narrow ≤ width)
    (count : Nat) :
    (left.result value count).setWidth narrow =
      left.result (value.setWidth narrow) count := by
  apply BitVec.eq_of_getLsbD_eq
  intro index inside
  simp only [result, BitVec.getLsbD_setWidth, BitVec.getLsbD_shiftLeft]
  grind

end Results

/-! ## Operands in words -/

section Words

variable {width bits : Nat} (word : BitVec width)

/-- A shift of the word to the right by `wide` places is one of the operand by
`count` places.  If these are the same, the bits that are moved into the
operand have to be those that it is filled up with. -/
def RightAgrees
    (direction : ShiftDirection)
    (bits wide count : Nat) : Prop :=
  if wide = count then
    ∀ index, bits ≤ index -> count ≤ index -> index < bits + count ->
      direction.filledBit word index = direction.fill (word.setWidth bits)
  else
    ∀ index < bits, direction.filledBit word (wide + index) =
      direction.filledBit (word.setWidth bits) (count + index)

/-- A shift of the word by `wide` places is one of the operand by `count`
places. -/
def Agrees (direction : ShiftDirection) (bits wide count : Nat) : Prop :=
  match direction with
  | left => wide = count ∨ word.setWidth bits <<< count = 0
  | right => right.RightAgrees word bits wide count
  | arithmeticRight => arithmeticRight.RightAgrees word bits wide count

variable {word}

/-- A shift to the right decides bit by bit. -/
theorem setWidth_result_right_iff
    {direction : ShiftDirection}
    (rightwards : direction ≠ left)
    (narrower : bits ≤ width)
    (wide count : Nat) :
    (direction.result word wide).setWidth bits =
        direction.result (word.setWidth bits) count ↔
      ∀ index < bits, direction.filledBit word (wide + index) =
        direction.filledBit (word.setWidth bits) (count + index) := by
  have wideBit : ∀ index, index < bits ->
      ((direction.result word wide).setWidth bits).getLsbD index =
        direction.filledBit word (wide + index) := by
    intro index inside
    rw [BitVec.getLsbD_setWidth, result_getLsbD word rightwards wide
      (inside.trans_le narrower)]
    simp [inside]
  constructor
  · intro same index inside
    rw [← wideBit index inside, same, result_getLsbD _ rightwards _ inside]
  · intro same
    apply BitVec.eq_of_getLsbD_eq
    intro index inside
    rw [wideBit index inside, result_getLsbD _ rightwards _ inside,
      same index inside]

/-- The bits of the operand itself are moved as they should be. -/
theorem filledBit_iff_of_same
    (direction : ShiftDirection)
    (narrower : bits ≤ width)
    (count : Nat) :
    (∀ index < bits, direction.filledBit word (count + index) =
        direction.filledBit (word.setWidth bits) (count + index)) ↔
      ∀ index, bits ≤ index -> count ≤ index -> index < bits + count ->
        direction.filledBit word index =
          direction.fill (word.setWidth bits) := by
  have above : ∀ index, bits ≤ index ->
      direction.filledBit (word.setWidth bits) index =
        direction.fill (word.setWidth bits) := by
    intro index beyond
    rw [filledBit, if_neg (by omega)]
  constructor
  · intro same index beyond reached below
    have moved := same (index - count) (by omega)
    have place : count + (index - count) = index := by omega
    rw [place, above index beyond] at moved
    exact moved
  · intro filled index inside
    by_cases own : count + index < bits
    · simp only [filledBit, if_pos own,
        if_pos (by omega : count + index < width), BitVec.getLsbD_setWidth]
      simp [own]
    · rw [above _ (by omega)]
      exact filled _ (by omega) (by omega) (by omega)

/-- The count has been reduced to fewer bits for the operand. -/
theorem setWidth_result_iff
    (direction : ShiftDirection)
    (narrower : bits ≤ width)
    {wide count : Nat}
    (reduced : wide = count ∨ bits ≤ wide) :
    (direction.result word wide).setWidth bits =
        direction.result (word.setWidth bits) count ↔
      direction.Agrees word bits wide count := by
  have right : ∀ direction : ShiftDirection, direction ≠ left ->
      ((direction.result word wide).setWidth bits =
        direction.result (word.setWidth bits) count ↔
          direction.RightAgrees word bits wide count) := by
    intro direction rightwards
    rw [setWidth_result_right_iff rightwards narrower, RightAgrees]
    split
    · rename_i same
      rw [same]
      exact direction.filledBit_iff_of_same narrower count
    · rfl
  cases direction with
  | left =>
      rw [setWidth_result_left word narrower, Agrees]
      rcases reduced with rfl | beyond
      · simp
      · have nothing : left.result (word.setWidth bits) wide = 0 := by
          simp [result, beyond]
        rw [nothing]
        by_cases same : wide = count
        · subst same
          simp [nothing]
        · simp only [same, false_or, result]
          exact eq_comm
  | right => exact right .right (by decide)
  | arithmeticRight => exact right .arithmeticRight (by decide)

/-- An operand that is the whole word is shifted as it should be. -/
theorem agrees_whole
    (direction : ShiftDirection)
    (whole : bits = width)
    (count : Nat) : direction.Agrees word bits count count := by
  subst whole
  rw [← setWidth_result_iff direction (le_refl _) (Or.inl rfl)]
  rw [BitVec.setWidth_eq, BitVec.setWidth_eq]

end Words

end ShiftDirection

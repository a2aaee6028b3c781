import Oxtra.Helper
import Oxtra.Library.RiscV.Frame

/-!
# Loading an immediate

The packages that `load_immediate` cuts an immediate into, read from the last
round to the first, always have the value of the part of the immediate that is
processed so far.
-/

namespace Oxtra
namespace Helper

open RiscV

/-! ## Bits of shifted words -/

/-- The bits of an immediate below a position and above another are the
same. -/
def Uniform (imm : BitVec 64) (low high : Nat) : Prop :=
  ∀ index, low ≤ index -> index < high ->
    imm.getLsbD index = imm.getLsbD (high - 1)

theorem equalRun_le (imm : BitVec 64) (value : Bool) (position : Nat) :
    equalRun imm value position ≤ position := by
  induction position with
  | zero => exact Nat.le_refl 0
  | succ position inductionHypothesis =>
      rw [equalRun]
      split <;> omega

/-- All bits of a run have its value. -/
theorem getLsbD_of_equalRun
    (imm : BitVec 64)
    (value : Bool)
    {position index : Nat}
    (low : position - equalRun imm value position ≤ index)
    (high : index < position) :
    imm.getLsbD index = value := by
  induction position with
  | zero => omega
  | succ position inductionHypothesis =>
      rw [equalRun] at low
      split at low
      · rename_i same
        rcases Nat.lt_or_ge index position with less | notLess
        · exact inductionHypothesis (by omega) less
        · rwa [show index = position by omega]
      · omega

theorem equalRun_pos
    (imm : BitVec 64)
    {left : Nat}
    (positive : 0 < left) :
    0 < equalRun imm (imm.getLsbD (left - 1)) left := by
  obtain ⟨position, rfl⟩ : ∃ position, left = position + 1 :=
    ⟨left - 1, by omega⟩
  rw [Nat.add_sub_cancel, equalRun, if_pos rfl]
  exact Nat.succ_pos _

theorem uniform_of_run
    {imm : BitVec 64}
    {left run : Nat}
    (runLe : run ≤ equalRun imm (imm.getLsbD (left - 1)) left) :
    Uniform imm (left - run) left := by
  intro index low high
  exact getLsbD_of_equalRun imm _ (by omega) high

theorem Uniform.mono
    {imm : BitVec 64}
    {low higher high : Nat}
    (uniform : Uniform imm low high)
    (le : low ≤ higher) :
    Uniform imm higher high :=
  fun index above below => uniform index (by omega) below

/-! ## The value of packages -/

/-- The twelve low bits of a package as a signed number. -/
def Package.signed (package : Package) : Word :=
  (package.bits.setWidth 12).signExtend 64

/-- The number that the code for packages leaves behind, the last package
first. -/
def packageValue (luiUsed : Bool) : List Package -> Word
  | [] => 0
  | [package] =>
      if luiUsed then
        (package.bits.setWidth 20 ++ 0#12).signExtend 64
      else
        package.signed
  | package :: parents =>
      packageValue luiUsed parents <<< (package.shift.setWidth 6).toNat ^^^
        package.signed

theorem packageValue_cons
    (luiUsed : Bool)
    (package : Package)
    {parents : List Package}
    (nonempty : parents ≠ []) :
    packageValue luiUsed (package :: parents) =
      packageValue luiUsed parents <<< (package.shift.setWidth 6).toNat ^^^
        package.signed := by
  cases parents with
  | nil => exact absurd rfl nonempty
  | cons => rfl

theorem getLsbD_signed
    (package : Package)
    {index : Nat}
    (inside : index < 64) :
    package.signed.getLsbD index = package.bits.getLsbD (min index 11) := by
  rw [Package.signed, BitVec.getLsbD_signExtend, BitVec.msb_setWidth,
    BitVec.getLsbD_setWidth]
  by_cases low : index < 12
  · simp [inside, low, Nat.min_eq_left (show index ≤ 11 by omega)]
  · simp [inside, low, Nat.min_eq_right (show 11 ≤ index by omega)]

/-! ## Execution -/

section Execution

variable {dest : Register}

theorem loadPackages_cons
    (luiUsed : Bool)
    (package : Package)
    {parents : List Package}
    (nonempty : parents ≠ []) :
    loadPackages dest luiUsed (package :: parents) =
      loadPackages dest luiUsed parents ++ loadFurther dest package := by
  cases parents with
  | nil => exact absurd rfl nonempty
  | cons => rfl

/-- Packages are loaded by instructions that compute the destination only. -/
theorem loadPackages_computesInto
    (luiUsed : Bool)
    (packages : List Package) :
    ComputesInto [dest] (loadPackages dest luiUsed packages) := by
  induction packages with
  | nil => exact ComputesInto.nil
  | cons package parents inductionHypothesis =>
      cases parents with
      | nil =>
          rw [loadPackages, loadFirst]
          split <;> exact ComputesInto.singleton rfl rfl (by simp)
      | cons parent further =>
          rw [loadPackages_cons _ _ (List.cons_ne_nil _ _), loadFurther]
          refine ComputesInto.append_iff.mpr
            ⟨inductionHypothesis, ComputesInto.append_iff.mpr ⟨?_, ?_⟩⟩
          · split
            · exact ComputesInto.singleton rfl rfl (by simp)
            · exact ComputesInto.nil
          · split
            · exact ComputesInto.singleton rfl rfl (by simp)
            · exact ComputesInto.nil

variable (nonzero : dest ≠ .zero)
include nonzero

theorem apply_slli_self
    (pc : Word)
    (state : State)
    (value : Word)
    (shamt : BitVec 8) :
    (Encoding.slli dest dest shamt).apply pc (state.set dest value) =
      state.set dest (value <<< (shamt.setWidth 6).toNat) := by
  simp only [Encoding.slli, Encoding.shift, Inst.apply, Shift.eval,
    State.set_get_self _ _ nonzero, State.set_set]

theorem apply_xori_self
    (pc : Word)
    (state : State)
    (value : Word)
    (bits : BitVec 32) :
    (Encoding.xori dest dest (bits.setWidth 16)).apply pc
        (state.set dest value) =
      state.set dest (value ^^^ (bits.setWidth 12).signExtend 64) := by
  simp only [Encoding.xori, Encoding.opImm, Inst.apply, OpImm.eval,
    State.set_get_self _ _ nonzero, State.set_set,
    BitVec.setWidth_setWidth_of_le bits (by decide : 12 ≤ 16)]

/-- The code for a further package shifts what is there and adds its bits. -/
theorem applyAll_loadFurther
    (pc : Word)
    (state : State)
    (value : Word)
    (package : Package) :
    applyAll pc (state.set dest value) (loadFurther dest package) =
      state.set dest
        (value <<< (package.shift.setWidth 6).toNat ^^^ package.signed) := by
  unfold loadFurther
  by_cases shifts : package.shift > 0 <;> by_cases bits : package.bits > 0
  · rw [if_pos shifts, if_pos bits]
    simp only [List.singleton_append, applyAll_cons, applyAll_nil,
      apply_slli_self nonzero, apply_xori_self nonzero, Package.signed]
  · have none : package.bits = 0 := by simpa using bits
    rw [if_pos shifts, if_neg bits]
    simp only [List.append_nil, applyAll_cons, applyAll_nil,
      apply_slli_self nonzero, Package.signed, none]
    simp
  · have none : package.shift = 0 := by simpa using shifts
    rw [if_neg shifts, if_pos bits]
    simp only [List.nil_append, applyAll_cons, applyAll_nil,
      apply_xori_self nonzero, Package.signed, none]
    simp
  · have noShift : package.shift = 0 := by simpa using shifts
    have noBits : package.bits = 0 := by simpa using bits
    rw [if_neg shifts, if_neg bits]
    simp [Package.signed, noShift, noBits]

theorem applyAll_loadPackages
    (pc : Word)
    (state : State)
    (luiUsed : Bool)
    {packages : List Package}
    (nonempty : packages ≠ []) :
    applyAll pc state (loadPackages dest luiUsed packages) =
      state.set dest (packageValue luiUsed packages) := by
  induction packages with
  | nil => exact absurd rfl nonempty
  | cons package parents inductionHypothesis =>
      cases parents with
      | nil =>
          cases luiUsed with
          | true => rfl
          | false =>
              simp only [loadPackages, loadFirst, Bool.false_eq_true, if_false,
                applyAll_cons, applyAll_nil, Encoding.xori, Encoding.opImm,
                Inst.apply, OpImm.eval, State.get_zero, packageValue,
                Package.signed, BitVec.setWidth_setWidth_of_le package.bits
                  (by decide : 12 ≤ 16)]
              exact congrArg (state.set dest) BitVec.zero_xor
      | cons parent further =>
          rw [loadPackages_cons _ _ (List.cons_ne_nil _ _), applyAll_append,
            inductionHypothesis (List.cons_ne_nil _ _),
            applyAll_loadFurther nonzero,
            packageValue_cons _ _ (List.cons_ne_nil _ _)]

end Execution

/-! ## The rounds of the encoding loop -/

/-- The word is a sequence of bits, moved up by some zeros. -/
def ScaledBits (word : Word) (scale : Nat) (bits : Nat -> Bool) : Prop :=
  ∀ index < 64,
    word.getLsbD index = (decide (scale ≤ index) && bits (index - scale))

/-- The part of an immediate above a position, as an infinite sequence. -/
def upperBits (imm : BitVec 64) (left : Nat) : Nat -> Bool :=
  fun index => imm.getLsbD (min (left + index) 63)

theorem ScaledBits.eq_of_left_zero
    {word : Word}
    {imm : BitVec 64}
    (bits : ScaledBits word 0 (upperBits imm 0)) :
    word = imm := by
  ext index inside
  have here := bits index inside
  rw [BitVec.getLsbD_eq_getElem inside] at here
  rw [here, upperBits, Nat.sub_zero, Nat.zero_add,
    Nat.min_eq_left (by omega), BitVec.getLsbD_eq_getElem inside]
  simp

/-- A package below the bits that are there.  It inverts them where its own
highest bit is set. -/
theorem ScaledBits.extend
    {word package : Word}
    {imm : BitVec 64}
    {scale shift high low : Nat}
    {inverted : Bool}
    (bits : ScaledBits word scale
      fun index => upperBits imm high index ^^ inverted)
    (shiftEq : low + shift + scale = high)
    (bound : high ≤ 64)
    (below : ∀ index < 64, package.getLsbD index =
      if index < high - low then imm.getLsbD (low + index) else inverted) :
    ScaledBits (word <<< shift ^^^ package) 0 (upperBits imm low) := by
  intro index inside
  rw [BitVec.getLsbD_xor, BitVec.getLsbD_shiftLeft, below index inside]
  by_cases inPackage : index < high - low
  · have noBit : (decide (index < 64) && !decide (index < shift) &&
        word.getLsbD (index - shift)) = false := by
      by_cases shifted : index < shift
      · simp [shifted]
      · rw [bits _ (by omega)]
        simp [show ¬ scale ≤ index - shift by omega]
    rw [noBit, if_pos inPackage, upperBits, Nat.sub_zero,
      Nat.min_eq_left (by omega)]
    simp
  · rw [if_neg inPackage, bits _ (by omega)]
    have position : high + (index - shift - scale) = low + index := by omega
    simp [inside, upperBits, position, show ¬ index < shift by omega,
      show scale ≤ index - shift by omega]

/-! ### Bits of packages -/

/-- The bits that a round cuts out of the immediate. -/
theorem getLsbD_packageBits
    (imm : BitVec 64)
    {digits left index : Nat}
    (fits : digits ≤ 32) :
    (((imm >>> left) &&& (BitVec.allOnes 64 >>> (64 - digits))).setWidth
        32).getLsbD index =
      (decide (index < digits) && imm.getLsbD (left + index)) := by
  rw [BitVec.getLsbD_setWidth, BitVec.getLsbD_and, BitVec.getLsbD_ushiftRight,
    BitVec.getLsbD_ushiftRight, BitVec.getLsbD_allOnes]
  by_cases inside : index < digits
  · simp [inside, show index < 32 by omega,
      show 64 - digits + index < 64 by omega]
  · simp [inside, show ¬ 64 - digits + index < 64 by omega]

theorem getLsbD_luiValue
    (bits : BitVec 32)
    {index : Nat}
    (inside : index < 64) :
    ((bits.setWidth 20 ++ 0#12).signExtend 64).getLsbD index =
      (decide (12 ≤ index) && bits.getLsbD (min (index - 12) 19)) := by
  rw [BitVec.getLsbD_signExtend, BitVec.msb_eq_getLsbD_last,
    BitVec.getLsbD_append, BitVec.getLsbD_append]
  by_cases low : index < 12
  · simp [low, show index < 32 by omega, show ¬ 12 ≤ index by omega]
  · by_cases middle : index < 32
    · simp [low, middle, inside, show 12 ≤ index by omega,
        show index - 12 < 20 by omega,
        Nat.min_eq_left (show index - 12 ≤ 19 by omega)]
    · simp [middle, inside, show 12 ≤ index by omega,
        Nat.min_eq_right (show 19 ≤ index - 12 by omega)]

/-- The number of zeros that the first package leaves below its bits. -/
def Packages.scale (state : Packages) : Nat :=
  if state.luiUsed ∧ state.packages.length = 1 then 12 else 0

theorem invertParent_ne_nil
    {packages : List Package}
    (nonempty : packages ≠ []) :
    invertParent packages ≠ [] := by
  cases packages with
  | nil => exact absurd rfl nonempty
  | cons => exact List.cons_ne_nil _ _

@[simp] theorem length_invertParent (packages : List Package) :
    (invertParent packages).length = packages.length := by
  cases packages <;> rfl

theorem getLsbD_signed_not
    (package : Package)
    {index : Nat}
    (inside : index < 64) :
    (Package.signed { package with bits := ~~~package.bits }).getLsbD index =
      !package.signed.getLsbD index := by
  rw [getLsbD_signed _ inside, getLsbD_signed _ inside, BitVec.getLsbD_not]
  simp [show min index 11 < 32 by omega]

/-- The value of packages whose last one is inverted. -/
theorem scaledBits_invertParent
    {state : Packages}
    {bits : Nat -> Bool}
    (nonempty : state.packages ≠ [])
    (scaled : ScaledBits (packageValue state.luiUsed state.packages)
      state.scale bits) :
    ScaledBits (packageValue state.luiUsed (invertParent state.packages))
      state.scale fun index => !bits index := by
  obtain ⟨packages, luiUsed, left⟩ := state
  intro index inside
  have here := scaled index inside
  simp only [Packages.scale] at *
  rcases packages with _ | ⟨package, _ | ⟨parent, further⟩⟩
  · exact absurd rfl nonempty
  · cases luiUsed with
    | true =>
        simp only [invertParent, packageValue, List.length_singleton, and_self,
          if_true] at *
        rw [getLsbD_luiValue _ inside] at here ⊢
        by_cases low : 12 ≤ index
        · simp only [low, decide_true, Bool.true_and] at here ⊢
          rw [BitVec.getLsbD_not, here]
          simp [show min (index - 12) 19 < 32 by omega]
        · simp [low]
    | false =>
        simp only [invertParent, packageValue, Bool.false_eq_true, false_and,
          if_false, Nat.zero_le, decide_true, Bool.true_and] at *
        rw [getLsbD_signed_not _ inside, here]
  · simp only [invertParent, packageValue, List.length_cons, Nat.reduceEqDiff,
      and_false, if_false, Nat.zero_le, decide_true, Bool.true_and] at *
    rw [BitVec.getLsbD_xor, getLsbD_signed_not _ inside, ← here,
      BitVec.getLsbD_xor]
    simp

/-! ### Numbers of digits -/

/-- The first package either has all bits that matter, or is twenty bits wide
and leaves the lowest ones. -/
theorem nextDigits_first
    {run : Nat}
    (positive : 0 < run)
    (bound : run ≤ 64) :
    let next := nextDigits true (64 - run + 1) (run - 1)
    53 ≤ run ∧ next.digits = 12 ∧ next.left = 0 ∨
      next.digits = 20 ∧ 12 ≤ next.left ∧ next.left ≤ 44 ∧
        64 - run ≤ next.left + 19 := by
  intro next
  simp only [next, nextDigits]
  repeat' split
  all_goals simp_all
  all_goals omega

/-- Another package and the equal bits in front of it use up the bits down to
those that are left. -/
theorem nextDigits_further
    {left run : Nat}
    (positive : 0 < run)
    (bound : run ≤ left) :
    let next := nextDigits false (left - run + 1) (run - 1)
    next.digits + next.equalDigits + next.left = left ∧
      (next.left = 0 ∨ next.left + 12 + run = left + 1) ∧
        (next.digits = 12 ∧ left ≤ next.left + 11 + run ∨
          next.digits = left ∧ left < 12 ∧ next.left = 0) := by
  intro next
  simp only [next, nextDigits]
  repeat' split
  all_goals simp_all
  all_goals omega

/-! ### The invariant -/

/-- At most so many instructions load the packages. -/
def codeBound : List Package -> Nat
  | [] => 0
  | [_] => 1
  | package :: parents =>
      codeBound parents + if package.shift > 0 then 2 else 1

theorem codeBound_cons
    (package : Package)
    {parents : List Package}
    (nonempty : parents ≠ []) :
    codeBound (package :: parents) =
      codeBound parents + if package.shift > 0 then 2 else 1 := by
  cases parents with
  | nil => exact absurd rfl nonempty
  | cons => rfl

@[simp] theorem codeBound_invertParent (packages : List Package) :
    codeBound (invertParent packages) = codeBound packages := by
  cases packages with
  | nil => rfl
  | cons package rest => cases rest <;> rfl

theorem length_loadPackages_le
    (dest : Register)
    (luiUsed : Bool)
    (packages : List Package) :
    (loadPackages dest luiUsed packages).length ≤ codeBound packages := by
  induction packages with
  | nil => exact Nat.le_refl 0
  | cons package parents inductionHypothesis =>
      rcases parents with _ | ⟨parent, further⟩
      · simp only [loadPackages, loadFirst, codeBound]
        split <;> exact Nat.le_refl 1
      · rw [loadPackages_cons _ _ (List.cons_ne_nil _ _),
          codeBound_cons _ (List.cons_ne_nil _ _), List.length_append]
        have further : (loadFurther dest package).length ≤
            if package.shift > 0 then 2 else 1 := by
          unfold loadFurther
          split <;> split <;> simp
        omega

/-- The packages have the value of the immediate above the bits that are left,
and there is room for the packages that are still to come. -/
structure Encodes (imm : BitVec 64) (state : Packages) : Prop where
  nonempty : state.packages ≠ []
  value : ScaledBits (packageValue state.luiUsed state.packages) state.scale
    (upperBits imm state.left)
  room : state.scale = 12 ∧ 12 ≤ state.left ∧ state.left ≤ 44 ∧
      codeBound state.packages = 1 ∨
    state.scale = 0 ∧ state.left ≤ 32 ∧
      codeBound state.packages + 2 * ((state.left + 11) / 12) ≤ 8

/-- The bits of a package of twelve digits as a signed number. -/
theorem signed_of_twelve
    {imm : BitVec 64}
    {package : Package}
    {left high : Nat}
    (bits : ∀ index < 12,
      package.bits.getLsbD index = imm.getLsbD (left + index))
    (uniform : Uniform imm (left + 11) high)
    (le : left + 12 ≤ high) :
    ∀ index < 64, package.signed.getLsbD index =
      if index < high - left then
        imm.getLsbD (left + index)
      else
        imm.getLsbD (high - 1) := by
  intro index inside
  rw [getLsbD_signed _ inside, bits _ (by omega)]
  by_cases low : index < 12
  · rw [Nat.min_eq_left (by omega), if_pos (by omega)]
  · rw [Nat.min_eq_right (by omega), uniform _ (by omega) (by omega)]
    split
    · rw [uniform (left + index) (by omega) (by omega)]
    · rfl

/-- The first round. -/
theorem encodes_first (imm : BitVec 64) : Encodes imm (nextPackage imm {}) := by
  have positive := equalRun_pos imm (by decide : 0 < 64)
  have bound := equalRun_le imm (imm.getLsbD 63) 64
  have uniform := uniform_of_run
    (Nat.le_refl (equalRun imm (imm.getLsbD (64 - 1)) 64))
  simp only [nextPackage, List.isEmpty_nil, List.length_nil, Nat.zero_ne_one,
    false_and, if_false, and_false, Bool.false_or, Bool.true_and, invertParent,
    ite_self]
  simp only [Nat.reduceSub] at *
  generalize equalRun imm (imm.getLsbD 63) 64 = run at *
  obtain ⟨many, digits, left⟩ | ⟨digits, low, high, few⟩ :=
    nextDigits_first positive bound
  · generalize nextDigits true (64 - run + 1) (run - 1) = next at *
    obtain ⟨width, equal, rest⟩ := next
    obtain rfl : width = 12 := digits
    obtain rfl : rest = 0 := left
    refine ⟨List.cons_ne_nil _ _, ?_, Or.inr ⟨rfl, Nat.zero_le _,
      (by decide : 1 + 2 * ((0 + 11) / 12) ≤ 8)⟩⟩
    intro index inside
    have signed := @signed_of_twelve imm
      ⟨((imm >>> 0) &&& (BitVec.allOnes 64 >>> (64 - 12))).setWidth 32,
        BitVec.ofNat 8 (12 + equal)⟩ 0 64
      (fun index small => by
        rw [getLsbD_packageBits imm (by decide : 12 ≤ 32)]
        simp [small])
      (uniform.mono (by omega)) (by decide) index inside
    rw [if_pos inside, Nat.zero_add] at signed
    simp only [packageValue, Nat.reduceEqDiff, decide_false,
      Bool.false_eq_true, if_false, Packages.scale, false_and, Nat.zero_le,
      decide_true, Bool.true_and, upperBits, Nat.sub_zero]
    rw [Nat.zero_add, Nat.min_eq_left (by omega)]
    exact signed
  · generalize nextDigits true (64 - run + 1) (run - 1) = next at *
    obtain ⟨width, equal, rest⟩ := next
    obtain rfl : width = 20 := digits
    change 12 ≤ rest at low
    change rest ≤ 44 at high
    change 64 - run ≤ rest + 19 at few
    refine ⟨List.cons_ne_nil _ _, ?_, Or.inl ⟨rfl, low, high, rfl⟩⟩
    intro index inside
    simp only [packageValue, decide_true, if_true, Packages.scale,
      List.length_singleton, and_self]
    rw [getLsbD_luiValue _ inside]
    by_cases below : 12 ≤ index
    · rw [getLsbD_packageBits imm (by decide : 20 ≤ 32), upperBits]
      simp only [below, decide_true, Bool.true_and, Nat.lt_succ_iff,
        Nat.min_le_right]
      by_cases middle : index - 12 < 20
      · rw [Nat.min_eq_left (by omega : index - 12 ≤ 19),
          Nat.min_eq_left (by omega)]
      · rw [Nat.min_eq_right (by omega), uniform _ (by omega) (by omega),
          uniform (min _ _) (by omega) (by omega)]
    · simp [below]

/-- The run of equal bits that a round goes on with. -/
def Packages.run (imm : BitVec 64) (state : Packages) : Nat :=
  let run := equalRun imm (imm.getLsbD (state.left - 1)) state.left
  if state.packages.length = 1 ∧ state.luiUsed ∧ run ≤ 12 then 1 else run

/-- The digits that a further round takes. -/
def Packages.digits (imm : BitVec 64) (state : Packages) : Digits :=
  nextDigits false (state.left - state.run imm + 1) (state.run imm - 1)

/-- The package that a further round adds. -/
def Packages.package (imm : BitVec 64) (state : Packages) : Package where
  bits := ((imm >>> (state.digits imm).left) &&&
    (BitVec.allOnes 64 >>> (64 - (state.digits imm).digits))).setWidth 32
  shift := BitVec.ofNat 8
    ((state.digits imm).digits + (state.digits imm).equalDigits - state.scale)

/-- The package in front inverts the ones that were there. -/
def Packages.inverts (imm : BitVec 64) (state : Packages) : Bool :=
  imm.getLsbD (state.left - 1) && decide ((state.digits imm).digits = 12)

theorem nextPackage_further
    (imm : BitVec 64)
    {state : Packages}
    (nonempty : state.packages ≠ []) :
    nextPackage imm state =
      { packages := state.package imm ::
          if state.inverts imm then
            invertParent state.packages
          else
            state.packages
        luiUsed := state.luiUsed
        left := (state.digits imm).left } := by
  have notFirst : state.packages.isEmpty = false := by
    simpa [List.isEmpty_iff] using nonempty
  have shifts : ∀ total : Nat,
      (if state.luiUsed = true ∧ state.packages.length = 1 then total - 12
        else total) = total - state.scale := by
    intro total
    unfold Packages.scale
    split <;> rfl
  have inverted : (state.inverts imm = true) =
      (imm.getLsbD (state.left - 1) = true ∧
        (state.digits imm).digits = 12) := by
    simp [Packages.inverts]
  simp only [inverted]
  simp only [nextPackage, notFirst, Bool.false_and, Bool.or_false, shifts,
    Packages.package, Packages.digits, Packages.run]
  congr

theorem Packages.run_spec
    (imm : BitVec 64)
    {state : Packages}
    (positive : 0 < state.left) :
    0 < state.run imm ∧ state.run imm ≤ state.left ∧
      Uniform imm (state.left - state.run imm) state.left ∧
        (state.scale = 12 -> state.run imm = 1 ∨ 13 ≤ state.run imm) := by
  have runPositive := equalRun_pos imm positive
  have runLe := equalRun_le imm (imm.getLsbD (state.left - 1)) state.left
  simp only [run, scale]
  generalize found : equalRun imm (imm.getLsbD (state.left - 1)) state.left =
    equal at *
  split
  · exact ⟨by decide, positive, uniform_of_run (by omega), fun _ => Or.inl rfl⟩
  · rename_i notShort
    refine ⟨runPositive, runLe, uniform_of_run (by omega), ?_⟩
    intro scaled
    split at scaled
    · rename_i first
      right
      by_contra short
      exact notShort ⟨first.2, first.1, by omega⟩
    · exact absurd scaled (by decide)

theorem Packages.scale_cases (state : Packages) :
    state.scale = 0 ∨ state.scale = 12 := by
  unfold scale
  split
  · exact Or.inr rfl
  · exact Or.inl rfl

/-- What a further round takes from the bits that are left. -/
theorem Packages.digits_spec
    (imm : BitVec 64)
    {state : Packages}
    (positive : 0 < state.left) :
    let next := state.digits imm
    next.digits + next.equalDigits + next.left = state.left ∧
      (next.left = 0 ∨ next.left + 12 + state.run imm = state.left + 1) ∧
        (next.digits = 12 ∧ state.left ≤ next.left + 11 + state.run imm ∨
          next.digits = state.left ∧ state.left < 12 ∧ next.left = 0) := by
  obtain ⟨runPositive, runLe, _, _⟩ := state.run_spec imm positive
  exact nextDigits_further runPositive runLe

/-- The bits of the package of a further round as a signed number. -/
theorem Packages.signed_package
    (imm : BitVec 64)
    {state : Packages}
    (positive : 0 < state.left) :
    ∀ index < 64, (state.package imm).signed.getLsbD index =
      if index < state.left - (state.digits imm).left then
        imm.getLsbD ((state.digits imm).left + index)
      else
        state.inverts imm := by
  obtain ⟨runPositive, runLe, uniform, _⟩ := state.run_spec imm positive
  obtain ⟨total, _, twelve | short⟩ := state.digits_spec imm positive
  · have signed := @signed_of_twelve imm (state.package imm)
      (state.digits imm).left state.left
      (fun index small => by
        rw [package, getLsbD_packageBits imm (by omega)]
        simp [small, twelve.1])
      (uniform.mono (by omega)) (by omega)
    intro index inside
    rw [signed index inside]
    simp [inverts, twelve.1]
  · obtain ⟨digits, less, none⟩ := short
    intro index inside
    rw [getLsbD_signed _ inside, package, getLsbD_packageBits imm (by omega),
      digits, none, Nat.zero_add, Nat.zero_add]
    simp only [inverts, digits, less.ne, decide_false, Bool.and_false,
      Nat.sub_zero]
    by_cases low : index < state.left
    · rw [if_pos low, Nat.min_eq_left (by omega)]
      simp [low]
    · rw [if_neg low]
      simp [show ¬ min index 11 < state.left by omega]

/-- The bits in front of a package, inverted where the package inverts
them. -/
theorem Encodes.parents
    {imm : BitVec 64}
    {state : Packages}
    (encodes : Encodes imm state) :
    ScaledBits
      (packageValue state.luiUsed
        (if state.inverts imm then
          invertParent state.packages
        else
          state.packages))
      state.scale
      fun index => upperBits imm state.left index ^^ state.inverts imm := by
  cases inverted : state.inverts imm with
  | true =>
      have bits := scaledBits_invertParent encodes.nonempty encodes.value
      simpa using bits
  | false => simpa using encodes.value

/-- A further round. -/
theorem encodes_further
    {imm : BitVec 64}
    {state : Packages}
    (encodes : Encodes imm state)
    (positive : 0 < state.left) :
    Encodes imm (nextPackage imm state) ∧
      (nextPackage imm state).left < state.left := by
  obtain ⟨runPositive, runLe, _, runCases⟩ := state.run_spec imm positive
  obtain ⟨total, rest, widths⟩ := state.digits_spec imm positive
  have scales := state.scale_cases
  have room := encodes.room
  have leftLe : state.left ≤ 44 := by omega
  have widthLe : state.scale ≤
      (state.digits imm).digits + (state.digits imm).equalDigits := by omega
  have shift : ((state.package imm).shift.setWidth 6).toNat =
      (state.digits imm).digits + (state.digits imm).equalDigits -
        state.scale := by
    simp only [Packages.package, BitVec.toNat_setWidth, BitVec.toNat_ofNat]
    omega
  have shiftZero : (state.digits imm).digits +
      (state.digits imm).equalDigits = state.scale ->
        ¬ (state.package imm).shift > 0 := by
    intro same
    simp [Packages.package, same]
  rw [nextPackage_further imm encodes.nonempty]
  generalize parentsEq : (if state.inverts imm then
    invertParent state.packages else state.packages) = parents
  have nonempty : parents ≠ [] := by
    rw [← parentsEq]
    split
    · exact invertParent_ne_nil encodes.nonempty
    · exact encodes.nonempty
  have bound : codeBound parents = codeBound state.packages := by
    rw [← parentsEq]
    split
    · exact codeBound_invertParent _
    · rfl
  have unscaled : (⟨state.package imm :: parents, state.luiUsed,
      (state.digits imm).left⟩ : Packages).scale = 0 := by
    have long : parents.length ≠ 0 := by simpa using nonempty
    simp [Packages.scale, long]
  refine ⟨⟨List.cons_ne_nil _ _, ?_, Or.inr ⟨unscaled, ?_, ?_⟩⟩, ?_⟩
  · rw [unscaled, packageValue_cons _ _ nonempty, ← parentsEq, shift]
    change ScaledBits _ 0 (upperBits imm (state.digits imm).left)
    exact encodes.parents.extend (by omega) (by omega)
      (state.signed_package imm positive)
  · change (state.digits imm).left ≤ 32
    omega
  · rw [codeBound_cons _ nonempty, bound]
    change _ + 2 * (((state.digits imm).left + 11) / 12) ≤ 8
    split
    · rename_i shifted
      have further : (state.digits imm).digits +
          (state.digits imm).equalDigits ≠ state.scale :=
        fun same => shiftZero same shifted
      omega
    · omega
  · change (state.digits imm).left < state.left
    omega

/-- The loop stops when no bits are left. -/
theorem encodes_makePackages
    {imm : BitVec 64}
    {rounds : Nat}
    {state : Packages}
    (encodes : Encodes imm (nextPackage imm state))
    (enough : (nextPackage imm state).left < rounds) :
    Encodes imm (makePackages imm rounds state) ∧
      (makePackages imm rounds state).left = 0 := by
  induction rounds generalizing state with
  | zero => omega
  | succ rounds inductionHypothesis =>
      rw [makePackages]
      split
      · rename_i done
        exact ⟨encodes, done⟩
      · rename_i further
        obtain ⟨next, less⟩ :=
          encodes_further encodes (Nat.pos_of_ne_zero further)
        exact inductionHypothesis next (by omega)

/-! ## `load_immediate` -/

theorem encodes_all (imm : BitVec 64) :
    Encodes imm (makePackages imm 64 {}) ∧
      (makePackages imm 64 {}).left = 0 := by
  have first := encodes_first imm
  have room := first.room
  exact encodes_makePackages first (by omega)

/-- The packages of an immediate have its value. -/
theorem packageValue_eq (imm : BitVec 64) :
    packageValue (makePackages imm 64 {}).luiUsed
      (makePackages imm 64 {}).packages = imm := by
  obtain ⟨encodes, done⟩ := encodes_all imm
  have room := encodes.room
  have unscaled : (makePackages imm 64 {}).scale = 0 := by omega
  have value := encodes.value
  rw [unscaled, done] at value
  exact value.eq_of_left_zero

/-- The code for an immediate sets the destination and nothing else. -/
theorem applyAll_loadImmediate
    {dest : Register}
    (nonzero : dest ≠ .zero)
    (pc : Word)
    (state : State)
    (imm : BitVec 64) :
    applyAll pc state (loadImmediate imm dest) = state.set dest imm := by
  rw [loadImmediate, applyAll_loadPackages nonzero _ _ _
    (encodes_all imm).1.nonempty, packageValue_eq]

/-- Every immediate is loaded by at most eight instructions. -/
theorem length_loadImmediate_le (imm : BitVec 64) (dest : Register) :
    (loadImmediate imm dest).length ≤ 8 := by
  obtain ⟨encodes, done⟩ := encodes_all imm
  have room := encodes.room
  have bound := length_loadPackages_le dest
    (makePackages imm 64 {}).luiUsed (makePackages imm 64 {}).packages
  rw [loadImmediate]
  omega

theorem loadImmediate_computesInto (imm : BitVec 64) (dest : Register) :
    ComputesInto [dest] (loadImmediate imm dest) :=
  loadPackages_computesInto _ _

theorem target_of_mem_loadImmediate
    {dest : Register}
    {imm : BitVec 64}
    {inst : Inst}
    (member : inst ∈ loadImmediate imm dest) :
    inst.isStraight = true ∧ inst.target = some dest := by
  have computes := loadImmediate_computesInto imm dest
  obtain ⟨-, register, inside, target⟩ :=
    Inst.computesInto_iff.mp (computes inst member)
  rw [List.mem_singleton] at inside
  exact ⟨computes.straight inst member, inside ▸ target⟩

/-! ## The arrays of `load_immediate` -/

/-- The state of the encoding loop before the round with this number. -/
def beforeRound (imm : BitVec 64) (round : Nat) : Packages :=
  (nextPackage imm)^[round] {}

theorem beforeRound_succ (imm : BitVec 64) (round : Nat) :
    beforeRound imm (round + 1) = nextPackage imm (beforeRound imm round) :=
  Function.iterate_succ_apply' _ _ _

/-- The round with this number is behind the last one. -/
def LoopEnds (imm : BitVec 64) (rounds : Nat) : Prop :=
  0 < rounds ∧ (beforeRound imm rounds).left = 0 ∧
    ∀ round, 0 < round -> round < rounds -> (beforeRound imm round).left ≠ 0

/-- Elements of the array `packages` that a round writes: the one for its
package, and the one that it inverts. -/
def Packages.packageWrites (imm : BitVec 64) (state : Packages) : List Nat :=
  state.packages.length ::
    if 0 < state.packages.length ∧ state.inverts imm then
      [state.packages.length - 1]
    else
      []

/-- Elements of the array `shifts` that a round writes. -/
def Packages.shiftWrites (state : Packages) : List Nat :=
  if 0 < state.packages.length then [state.packages.length - 1] else []

/-- What holds in front of every round but the first one. -/
structure FitsArrays (state : Packages) : Prop where
  left : state.left ≤ 44
  room : state.packages.length + (state.left + 11) / 12 ≤ 5
  shifts : ∀ package ∈ state.packages.dropLast, package.shift.toNat < 64

@[simp] theorem length_nextPackage (imm : BitVec 64) (state : Packages) :
    (nextPackage imm state).packages.length = state.packages.length + 1 := by
  have parents (inverts : Prop) [Decidable inverts] :
      (if inverts then invertParent state.packages
        else state.packages).length = state.packages.length := by
    split
    · exact length_invertParent _
    · rfl
  rw [nextPackage]
  simp only [List.length_cons, parents]

@[simp] theorem length_beforeRound (imm : BitVec 64) (round : Nat) :
    (beforeRound imm round).packages.length = round := by
  induction round with
  | zero => rfl
  | succ round inductionHypothesis =>
      rw [beforeRound_succ, length_nextPackage, inductionHypothesis]

theorem fitsArrays_first (imm : BitVec 64) :
    FitsArrays (nextPackage imm {}) := by
  have room := (encodes_first imm).room
  have one : (nextPackage imm {}).packages.length = 1 := by
    rw [length_nextPackage]
    rfl
  refine ⟨by omega, by omega, ?_⟩
  intro package member
  have none : (nextPackage imm {}).packages.dropLast = [] :=
    List.eq_nil_of_length_eq_zero (by rw [List.length_dropLast, one])
  rw [none] at member
  cases member

/-- Inverting a package keeps the shifts. -/
theorem shift_invertParent
    {packages : List Package}
    {bound : Nat}
    (shifts : ∀ package ∈ packages.dropLast, package.shift.toNat < bound) :
    ∀ package ∈ (invertParent packages).dropLast,
      package.shift.toNat < bound := by
  rcases packages with _ | ⟨first, _ | ⟨second, rest⟩⟩
  · exact shifts
  · exact shifts
  · intro package member
    simp only [invertParent, List.dropLast_cons_cons, List.mem_cons] at shifts member
    rcases member with rfl | further
    · exact shifts first (Or.inl rfl)
    · exact shifts package (Or.inr further)

theorem FitsArrays.next
    {imm : BitVec 64}
    {state : Packages}
    (fits : FitsArrays state)
    (nonempty : state.packages ≠ [])
    (positive : 0 < state.left) :
    FitsArrays (nextPackage imm state) := by
  obtain ⟨total, rest, -⟩ := state.digits_spec imm positive
  obtain ⟨runPositive, -, -, -⟩ := state.run_spec imm positive
  have left := fits.left
  have room := fits.room
  rw [nextPackage_further imm nonempty]
  refine ⟨?_, ?_, ?_⟩
  · change (state.digits imm).left ≤ 44
    omega
  · have parents : (if state.inverts imm then
        invertParent state.packages else state.packages).length =
          state.packages.length := by
      split
      · exact length_invertParent _
      · rfl
    change _ + ((state.digits imm).left + 11) / 12 ≤ 5
    rw [List.length_cons, parents]
    omega
  · generalize parentsEq : (if state.inverts imm then
      invertParent state.packages else state.packages) = parents
    have kept : ∀ package ∈ parents.dropLast, package.shift.toNat < 64 := by
      rw [← parentsEq]
      split
      · exact shift_invertParent fits.shifts
      · exact fits.shifts
    have some : parents ≠ [] := by
      rw [← parentsEq]
      split
      · exact invertParent_ne_nil nonempty
      · exact nonempty
    intro package member
    rw [List.dropLast_cons_of_ne_nil some, List.mem_cons] at member
    rcases member with rfl | further
    · simp only [Packages.package, BitVec.toNat_ofNat]
      omega
    · exact kept package further

/-- The arrays are large enough for all rounds. -/
theorem fitsArrays_beforeRound
    {imm : BitVec 64}
    {round : Nat}
    (goesOn : ∀ earlier, 0 < earlier -> earlier < round + 1 ->
      (beforeRound imm earlier).left ≠ 0) :
    FitsArrays (beforeRound imm (round + 1)) := by
  induction round with
  | zero => exact fitsArrays_first imm
  | succ round inductionHypothesis =>
      have fits := inductionHypothesis fun earlier positive less =>
        goesOn earlier positive (by omega)
      rw [beforeRound_succ]
      refine fits.next ?_ ?_
      · rw [← List.length_pos_iff, length_beforeRound]
        omega
      · exact Nat.pos_of_ne_zero (goesOn _ (by omega) (by omega))

/-- The loop ends after five rounds at most. -/
theorem exists_loopEnds (imm : BitVec 64) :
    ∃ rounds ≤ 5, LoopEnds imm rounds := by
  have ends : ∃ rounds, 0 < rounds ∧ rounds ≤ 5 ∧
      (beforeRound imm rounds).left = 0 := by
    by_contra endless
    simp only [not_exists, not_and] at endless
    have fits := @fitsArrays_beforeRound imm 4 fun earlier positive less =>
      endless earlier positive (by omega)
    have room := fits.room
    have goesOn := endless 5 (by decide) (by decide)
    rw [length_beforeRound] at room
    simp only [Nat.reduceAdd] at room
    omega
  classical
  obtain ⟨positive, few, none⟩ := Nat.find_spec ends
  refine ⟨Nat.find ends, few, positive, none, ?_⟩
  intro round roundPositive less zero
  exact Nat.find_min ends less ⟨roundPositive, by omega, zero⟩

/-- The rounds that are made, if there are enough of them. -/
theorem makePackages_of_loopEnds
    {imm : BitVec 64}
    {rounds : Nat}
    (ends : LoopEnds imm rounds)
    {count start : Nat}
    (before : start < rounds)
    (enough : rounds ≤ start + count) :
    makePackages imm count (beforeRound imm start) =
      beforeRound imm rounds := by
  induction count generalizing start with
  | zero => omega
  | succ count inductionHypothesis =>
      rw [makePackages, ← beforeRound_succ]
      by_cases last : start + 1 = rounds
      · rw [last, if_pos ends.2.1]
      · rw [if_neg (ends.2.2 _ (by omega) (by omega))]
        exact inductionHypothesis (by omega) (by omega)

/-- Everything that is expected of `load_immediate` for an immediate and a
destination. -/
structure LoadsImmediate (imm : BitVec 64) (dest : Register) : Prop where
  /-- The encoding loop ends, and makes the packages that are loaded. -/
  ends : ∃ rounds, LoopEnds imm rounds ∧
    makePackages imm 64 {} = beforeRound imm rounds
  /-- All writes are inside of the arrays `packages[5]` and `shifts[4]`. -/
  inside (rounds round : Nat) : LoopEnds imm rounds -> round < rounds ->
    (∀ index ∈ (beforeRound imm round).packageWrites imm, index < 5) ∧
      ∀ index ∈ (beforeRound imm round).shiftWrites, index < 4
  /-- The shifts that are emitted, in front of every package but the first
  one. -/
  shifts : ∀ package ∈ (makePackages imm 64 {}).packages.dropLast,
    package.shift.toNat < 64
  short : (loadImmediate imm dest).length ≤ 8
  /-- The code sets the destination and nothing else. -/
  executes (env : Environment) (state : State) :
    env.PermitsAll state (loadImmediate imm dest) ->
      ∃ final, env.Exits (loadImmediate imm dest) state (.ended final) ∧
        final.mem = state.mem ∧
          ∀ register, final.get register =
            if register = dest ∧ dest ≠ .zero then
              imm
            else
              state.get register

/-- Loading an immediate is correct for every immediate. -/
theorem loadsImmediate (imm : BitVec 64) (dest : Register) :
    LoadsImmediate imm dest := by
  obtain ⟨rounds, few, ends⟩ := exists_loopEnds imm
  have made : makePackages imm 64 {} = beforeRound imm rounds :=
    @makePackages_of_loopEnds imm rounds ends 64 0 ends.1 (by omega)
  have goesOn := ends.2.2
  refine ⟨⟨rounds, ends, made⟩, ?_, ?_, length_loadImmediate_le imm dest, ?_⟩
  · intro other round otherEnds less
    have same : other ≤ rounds := by
      by_contra more
      exact otherEnds.2.2 rounds ends.1 (by omega) ends.2.1
    constructor
    · intro index member
      rw [Packages.packageWrites, length_beforeRound, List.mem_cons] at member
      rcases member with rfl | inverted
      · omega
      · split at inverted
        · rw [List.mem_singleton] at inverted
          omega
        · cases inverted
    · intro index member
      rw [Packages.shiftWrites, length_beforeRound] at member
      split at member
      · rw [List.mem_singleton] at member
        omega
      · cases member
  · obtain ⟨before, rfl⟩ : ∃ before, rounds = before + 1 :=
      ⟨rounds - 1, by have := ends.1; omega⟩
    rw [made]
    exact (fitsArrays_beforeRound goesOn).shifts
  · intro env state permits
    have straight := Environment.exits_straight
      (fun inst member => (target_of_mem_loadImmediate member).1) permits
    refine ⟨_, straight, ?_, ?_⟩
    · apply applyAll_mem_of_target
      intro inst member
      rw [(target_of_mem_loadImmediate member).2]
      rfl
    · intro register
      by_cases zero : dest = .zero
      · rw [if_neg fun both => both.2 zero]
        by_cases read : register = .zero
        · rw [read, State.get_zero, State.get_zero]
        · apply applyAll_get_of_not_target
          intro inst member
          rw [(target_of_mem_loadImmediate member).2, zero]
          exact fun same => read (Option.some.inj same).symm
      · rw [applyAll_loadImmediate zero]
        by_cases written : register = dest
        · rw [if_pos ⟨written, zero⟩, written, State.set_get_self _ _ zero]
        · rw [if_neg fun both => written both.1,
            State.set_get_of_ne _ _ written]

end Helper
end Oxtra

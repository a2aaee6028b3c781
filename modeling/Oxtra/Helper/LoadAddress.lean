import Oxtra.Encoding.Effects
import Oxtra.Helper
import Mathlib.Data.BitVec
import Mathlib.Tactic.Ring

/-!
# Loading an address

The packages of an address have a fixed place.  A package that is negative as
an immediate is made up for by the next one.
-/

namespace Oxtra
namespace Helper

open RiscV
open Encoding

/-! ## Packages -/

/-- Some bits of an address, in a package that is wide enough. -/
theorem setWidth_package_toNat
    (ptr : BitVec 64)
    {low bits width : Nat}
    {mask : BitVec 64}
    (isMask : mask = BitVec.ofNat 64 ((2 ^ bits - 1) * 2 ^ low))
    (bound : low + bits ≤ 64)
    (wide : bits ≤ width) :
    (((ptr &&& mask) >>> low).setWidth width).toNat =
      ptr.toNat / 2 ^ low % 2 ^ bits := by
  subst isMask
  have positive := Nat.two_pow_pos bits
  have fits : (2 ^ bits - 1) * 2 ^ low < 2 ^ 64 := by
    calc (2 ^ bits - 1) * 2 ^ low < 2 ^ bits * 2 ^ low :=
          Nat.mul_lt_mul_of_pos_right (by omega) (Nat.two_pow_pos low)
      _ = 2 ^ (low + bits) := by rw [← Nat.pow_add, Nat.add_comm]
      _ ≤ 2 ^ 64 := Nat.pow_le_pow_right (by decide) bound
  have narrow : ptr.toNat / 2 ^ low % 2 ^ bits < 2 ^ width :=
    (Nat.mod_lt _ positive).trans_le (Nat.pow_le_pow_right (by decide) wide)
  rw [BitVec.toNat_setWidth, BitVec.toNat_ushiftRight, BitVec.toNat_and,
    BitVec.toNat_ofNat, Nat.mod_eq_of_lt fits, Nat.shiftRight_and_distrib,
    Nat.shiftRight_eq_div_pow, Nat.shiftRight_eq_div_pow,
    Nat.mul_div_cancel _ (Nat.two_pow_pos low),
    Nat.and_two_pow_sub_one_eq_mod, Nat.mod_eq_of_lt narrow]

/-- A package that was given the carry of the one before. -/
def carried {width : Nat} (package : BitVec width) (carry : Bool) :
    BitVec width :=
  if carry then package + 1 else package

theorem carried_toNat
    {width : Nat}
    {package : BitVec width}
    (wide : 1 < width)
    (bound : package.toNat + 1 < 2 ^ width)
    (carry : Bool) :
    (carried package carry).toNat = package.toNat + carry.toNat := by
  cases carry with
  | false => rfl
  | true =>
      have one : (1 : BitVec width).toNat = 1 :=
        Nat.mod_eq_of_lt (Nat.one_lt_two_pow (by omega))
      change (package + 1).toNat = package.toNat + 1
      rw [BitVec.toNat_add, one, Nat.mod_eq_of_lt bound]

/-- A package as an immediate, without the carry that the next one gets. -/
theorem signedImm_package
    {package : BitVec 16}
    (bound : package.toNat ≤ 0x1000) :
    signedImm package = BitVec.ofNat 64 package.toNat -
      BitVec.ofNat 64 (0x1000 * (decide (package ≥ 0x800)).toNat) := by
  have carries : (package ≥ 0x800) = (0x800 ≤ package.toNat) := rfl
  have value : (package.setWidth 12).toNat = package.toNat % 2 ^ 12 :=
    BitVec.toNat_setWidth 12 package
  apply BitVec.eq_of_toNat_eq
  rw [signedImm, BitVec.toNat_signExtend, BitVec.msb_eq_decide,
    BitVec.toNat_setWidth, value, BitVec.toNat_sub, BitVec.toNat_ofNat,
    BitVec.toNat_ofNat]
  simp only [carries, decide_eq_true_eq]
  by_cases negative : 0x800 ≤ package.toNat
  · rw [decide_eq_true negative, Bool.toNat_true]
    split <;> omega
  · rw [decide_eq_false negative, Bool.toNat_false]
    split <;> omega

/-- The sign of the upper package is shifted out. -/
theorem upperPackage_shiftLeft (package : BitVec 20) :
    (package ++ 0#12).signExtend 64 <<< 32 =
      BitVec.ofNat 64 (package.toNat * 2 ^ 44) := by
  have value : (package ++ 0#12).toNat = package.toNat * 2 ^ 12 := by
    rw [BitVec.toNat_append]
    simp [Nat.shiftLeft_eq]
  apply BitVec.eq_of_toNat_eq
  rw [BitVec.toNat_shiftLeft, BitVec.toNat_signExtend, BitVec.toNat_setWidth,
    value, BitVec.toNat_ofNat, Nat.shiftLeft_eq]
  split <;> omega

/-- What the packages add up to. -/
def packagesValue
    (package4 : BitVec 20)
    (package3 package2 package1 package0 : BitVec 16) : Word :=
  ((((package4 ++ 0#12).signExtend 64 + signedImm package3) <<< 12 +
    signedImm package2) <<< 12 + signedImm package1) <<< 8 +
    signedImm package0

theorem packagesValue_eq
    (package4 : BitVec 20)
    (package3 package2 package1 package0 : BitVec 16) :
    packagesValue package4 package3 package2 package1 package0 =
      (package4 ++ 0#12).signExtend 64 <<< 32 +
        signedImm package3 * BitVec.ofNat 64 (2 ^ 32) +
        signedImm package2 * BitVec.ofNat 64 (2 ^ 20) +
        signedImm package1 * BitVec.ofNat 64 (2 ^ 8) +
        signedImm package0 := by
  have shift (value : Word) (amount : Nat) :
      value <<< amount = value * BitVec.ofNat 64 (2 ^ amount) := by
    apply BitVec.eq_of_toNat_eq
    simp [Nat.shiftLeft_eq]
  simp only [packagesValue, shift]
  have first : BitVec.ofNat 64 (2 ^ 32) = BitVec.ofNat 64 (2 ^ 12) *
      BitVec.ofNat 64 (2 ^ 12) * BitVec.ofNat 64 (2 ^ 8) := by decide
  have second : BitVec.ofNat 64 (2 ^ 20) =
      BitVec.ofNat 64 (2 ^ 12) * BitVec.ofNat 64 (2 ^ 8) := by decide
  rw [first, second]
  ring

/-- The packages with their carries add up to the address. -/
theorem packagesValue_address
    (package4 package3 package2 package1 package0 : Nat)
    (carry3 carry2 carry1 : Bool) :
    BitVec.ofNat 64 ((package4 + carry3.toNat) * 2 ^ 44) +
        (BitVec.ofNat 64 (package3 + carry2.toNat) -
          BitVec.ofNat 64 (0x1000 * carry3.toNat)) *
            BitVec.ofNat 64 (2 ^ 32) +
        (BitVec.ofNat 64 (package2 + carry1.toNat) -
          BitVec.ofNat 64 (0x1000 * carry2.toNat)) *
            BitVec.ofNat 64 (2 ^ 20) +
        (BitVec.ofNat 64 package1 -
          BitVec.ofNat 64 (0x1000 * carry1.toNat)) *
            BitVec.ofNat 64 (2 ^ 8) +
        BitVec.ofNat 64 package0 =
      BitVec.ofNat 64 (package4 * 2 ^ 44 + package3 * 2 ^ 32 +
        package2 * 2 ^ 20 + package1 * 2 ^ 8 + package0) := by
  simp only [BitVec.ofNat_add, BitVec.ofNat_mul]
  have first : BitVec.ofNat 64 (2 ^ 44) =
      BitVec.ofNat 64 0x1000 * BitVec.ofNat 64 (2 ^ 32) := by decide
  have second : BitVec.ofNat 64 (2 ^ 32) =
      BitVec.ofNat 64 0x1000 * BitVec.ofNat 64 (2 ^ 20) := by decide
  have third : BitVec.ofNat 64 (2 ^ 20) =
      BitVec.ofNat 64 0x1000 * BitVec.ofNat 64 (2 ^ 8) := by decide
  rw [first, second, third]
  ring

/-- Packages that hand on their carries add up to the number that they are
made of. -/
theorem packagesValue_carried
    {package4 : BitVec 32}
    {package3 package2 package1 package0 : BitVec 16}
    (bound4 : package4.toNat < 2 ^ 20)
    (bound3 : package3.toNat < 0x1000)
    (bound2 : package2.toNat < 0x1000)
    (bound1 : package1.toNat < 0x1000)
    (bound0 : package0.toNat < 0x100) :
    let second := carried package2 (decide (package1 ≥ 0x800))
    let third := carried package3 (decide (second ≥ 0x800))
    let fourth := carried package4 (decide (third ≥ 0x800))
    packagesValue (fourth.setWidth 20) third second package1 package0 =
      BitVec.ofNat 64 (package4.toNat * 2 ^ 44 + package3.toNat * 2 ^ 32 +
        package2.toNat * 2 ^ 20 + package1.toNat * 2 ^ 8 +
          package0.toNat) := by
  intro second third fourth
  have secondValue : second.toNat =
      package2.toNat + (decide (package1 ≥ 0x800)).toNat :=
    carried_toNat (by decide) (by omega) _
  have thirdValue : third.toNat =
      package3.toNat + (decide (second ≥ 0x800)).toNat :=
    carried_toNat (by decide) (by omega) _
  have fourthValue : fourth.toNat =
      package4.toNat + (decide (third ≥ 0x800)).toNat :=
    carried_toNat (by decide) (by omega) _
  have secondBound : second.toNat ≤ 0x1000 := by
    have carry := (decide (package1 ≥ 0x800)).toNat_le
    omega
  have thirdBound : third.toNat ≤ 0x1000 := by
    have carry := (decide (second ≥ 0x800)).toNat_le
    omega
  have upper : BitVec.ofNat 64 ((fourth.setWidth 20).toNat * 2 ^ 44) =
      BitVec.ofNat 64 (fourth.toNat * 2 ^ 44) := by
    apply BitVec.eq_of_toNat_eq
    rw [BitVec.toNat_setWidth, BitVec.toNat_ofNat, BitVec.toNat_ofNat]
    omega
  have notNegative : decide (package0 ≥ 0x800) = false := by
    have small : ¬ (0x800 : BitVec 16).toNat ≤ package0.toNat := by
      change ¬ 0x800 ≤ package0.toNat
      omega
    exact decide_eq_false small
  have lowest := signedImm_package (by omega : package0.toNat ≤ 0x1000)
  rw [notNegative, Bool.toNat_false, Nat.mul_zero, BitVec.sub_zero] at lowest
  rw [packagesValue_eq, upperPackage_shiftLeft, upper,
    signedImm_package thirdBound, signedImm_package secondBound,
    signedImm_package (by omega : package1.toNat ≤ 0x1000), lowest,
    fourthValue, thirdValue, secondValue]
  exact packagesValue_address _ _ _ _ _ _ _ _

/-! ## The code -/

theorem loadAddress_computesInto (ptr : BitVec 64) (dest : Register) :
    ComputesInto [dest] (loadAddress ptr dest) := by
  simp only [loadAddress, ComputesInto.cons_iff, ComputesInto.nil, and_true]
  refine ⟨?_, ?_, ?_, ?_, ?_, ?_, ?_, ?_⟩
  all_goals exact Inst.computesInto_of_target rfl rfl (by simp)

/-- The code loads the address, whatever was in the register. -/
theorem applyAll_loadAddress
    (pc : Word)
    (state : State)
    (ptr : BitVec 64)
    {dest : Register}
    (nonzero : dest ≠ .zero) :
    applyAll pc state (loadAddress ptr dest) = state.set dest ptr := by
  let package0 : BitVec 16 := (ptr &&& 0xff).setWidth 16
  let package1 : BitVec 16 := ((ptr &&& 0xfff00) >>> 8).setWidth 16
  let package2 : BitVec 16 := ((ptr &&& 0xfff00000) >>> 20).setWidth 16
  let package3 : BitVec 16 := ((ptr &&& 0xfff00000000) >>> 32).setWidth 16
  let package4 : BitVec 32 := ((ptr &&& 0xfffff00000000000) >>> 44).setWidth 32
  let second := carried package2 (decide (package1 ≥ 0x800))
  let third := carried package3 (decide (second ≥ 0x800))
  let fourth := carried package4 (decide (third ≥ 0x800))
  have code : loadAddress ptr dest =
      [lui dest fourth,
        addi dest dest third, slli dest dest 12,
        addi dest dest second, slli dest dest 12,
        addi dest dest package1, slli dest dest 8,
        addi dest dest package0] := by
    simp only [loadAddress, fourth, third, second, carried, decide_eq_true_eq]
    rfl
  have value : applyAll pc state (loadAddress ptr dest) = state.set dest
      (packagesValue (fourth.setWidth 20) third second package1 package0) := by
    have upper : (lui dest fourth).apply pc state =
        state.set dest ((fourth.setWidth 20 ++ 0#12).signExtend 64) := rfl
    simp only [code, applyAll_cons, applyAll_nil, upper, apply_addi,
      apply_slli, State.set_get_self _ _ nonzero, State.set_set]
    rfl
  have value0 : package0.toNat = ptr.toNat / 2 ^ 0 % 2 ^ 8 :=
    @setWidth_package_toNat ptr 0 8 16 0xff rfl (by decide) (by decide)
  have value1 : package1.toNat = ptr.toNat / 2 ^ 8 % 2 ^ 12 :=
    setWidth_package_toNat ptr rfl (by decide) (by decide)
  have value2 : package2.toNat = ptr.toNat / 2 ^ 20 % 2 ^ 12 :=
    setWidth_package_toNat ptr rfl (by decide) (by decide)
  have value3 : package3.toNat = ptr.toNat / 2 ^ 32 % 2 ^ 12 :=
    setWidth_package_toNat ptr rfl (by decide) (by decide)
  have value4 : package4.toNat = ptr.toNat / 2 ^ 44 % 2 ^ 20 :=
    setWidth_package_toNat ptr rfl (by decide) (by decide)
  have sum := @packagesValue_carried package4 package3 package2 package1
    package0 (by omega) (by omega) (by omega) (by omega) (by omega)
  rw [value]
  congr 1
  refine sum.trans (BitVec.eq_of_toNat_eq ?_)
  have bound := ptr.isLt
  rw [BitVec.toNat_ofNat]
  omega

end Helper
end Oxtra

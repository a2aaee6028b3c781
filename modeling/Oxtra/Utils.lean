import Mathlib.Algebra.Group.Nat.Defs
import Mathlib.Data.Nat.Basic

/-!
# Page alignment

`page_align` rounds up to a multiple of the page size.  Its mask is a 32-bit
number, so that the result has no bits above these.
-/

namespace Oxtra
namespace Utils

/-- `page_align` -/
def pageAlign (address : BitVec 64) : BitVec 64 :=
  (address + 0xfff) &&& ((~~~(0xfff : BitVec 32)).setWidth 64)

theorem and_pageMask (address : BitVec 64) :
    address &&& ((~~~(0xfff : BitVec 32)).setWidth 64) =
      ((address >>> 12).setWidth 20).setWidth 64 <<< 12 := by
  have mask : (~~~(0xfff : BitVec 32)).setWidth 64 =
      (BitVec.allOnes 20).setWidth 64 <<< 12 := by decide
  rw [mask]
  apply BitVec.eq_of_getLsbD_eq
  intro index inside
  simp only [BitVec.getLsbD_and, BitVec.getLsbD_shiftLeft,
    BitVec.getLsbD_setWidth, BitVec.getLsbD_allOnes,
    BitVec.getLsbD_ushiftRight, inside, decide_true, Bool.true_and]
  by_cases low : index < 12
  · simp [low]
  · have position : 12 + (index - 12) = index := by omega
    have inWord : index - 12 < 64 := by omega
    simp only [low, decide_false, Bool.not_false, Bool.true_and, inWord,
      decide_true, position]
    exact Bool.and_comm _ _

theorem pageAlign_toNat (address : BitVec 64) :
    (pageAlign address).toNat =
      (address.toNat + 0xfff) % 2 ^ 64 / 4096 % 2 ^ 20 * 4096 := by
  rw [pageAlign, and_pageMask, BitVec.toNat_shiftLeft, BitVec.toNat_setWidth,
    BitVec.toNat_setWidth, BitVec.toNat_ushiftRight, BitVec.toNat_add,
    Nat.shiftLeft_eq, Nat.shiftRight_eq_div_pow]
  have literal : (0xfff : BitVec 64).toNat = 0xfff := rfl
  rw [literal]
  omega

theorem pageAlign_aligned (address : BitVec 64) :
    (pageAlign address).toNat % 4096 = 0 := by
  rw [pageAlign_toNat]
  exact Nat.mul_mod_left _ _

/-- A small address is rounded up. -/
theorem pageAlign_of_small
    {address : BitVec 64}
    (small : address.toNat ≤ 0xfffff000) :
    address.toNat ≤ (pageAlign address).toNat ∧
      (pageAlign address).toNat < address.toNat + 4096 := by
  rw [pageAlign_toNat]
  omega

/-- The result has 32 bits. -/
theorem pageAlign_le (address : BitVec 64) :
    (pageAlign address).toNat ≤ 0xfffff000 := by
  rw [pageAlign_toNat]
  omega

end Utils
end Oxtra

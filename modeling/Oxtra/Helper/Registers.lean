import Oxtra.Helper

/-!
# Registers of the guest

The registers that the guest's registers are mapped to, apart from those that
the translation keeps for itself.
-/

namespace Oxtra
namespace Helper

open RiscV

/-- Some register of the guest is mapped to the register. -/
def isGuest : Register -> Bool
  | .a7 | .a6 | .a2 | .s2 | .sp | .s0 | .a1 | .a0 | .a4 | .a5 | .a3 | .s3
  | .s4 | .s5 | .s6 | .s7 => true
  | _ => false

@[simp] theorem isGuest_reserved :
    isGuest .zero = false ∧ isGuest .ra = false ∧ isGuest .t0 = false ∧
      isGuest .t1 = false ∧ isGuest .t2 = false ∧ isGuest .t3 = false ∧
      isGuest .t4 = false ∧ isGuest .t5 = false ∧ isGuest .t6 = false ∧
      isGuest .s1 = false ∧ isGuest .s8 = false ∧ isGuest .s10 = false ∧
      isGuest .s11 = false := by
  decide

@[simp] theorem isGuest_mapReg (reg : Fadec.Register) :
    isGuest (mapReg reg) = true := by
  revert reg
  decide

theorem mapReg_injective : Function.Injective mapReg := by
  unfold Function.Injective
  decide

@[simp] theorem mapReg_inj {first second : Fadec.Register} :
    mapReg first = mapReg second ↔ first = second :=
  mapReg_injective.eq_iff

/-- A register of the guest is none of the others. -/
theorem ne_of_isGuest
    {guest register : Register}
    (isGuest : Helper.isGuest guest = true)
    (reserved : Helper.isGuest register = false) :
    guest ≠ register := by
  rintro rfl
  rw [isGuest] at reserved
  cases reserved

/-- Every register of the guest is mapped to. -/
theorem exists_mapReg_of_isGuest
    {register : Register}
    (guest : isGuest register = true) :
    ∃ reg, mapReg reg = register := by
  revert guest
  cases register <;> decide

@[simp] theorem mapReg_eq_iff
    (reg : Fadec.Register)
    {register : Register}
    (reserved : isGuest register = false) :
    mapReg reg = register ↔ False :=
  iff_of_false (ne_of_isGuest (isGuest_mapReg reg) reserved) id

@[simp] theorem eq_mapReg_iff
    (reg : Fadec.Register)
    {register : Register}
    (reserved : isGuest register = false) :
    register = mapReg reg ↔ False :=
  iff_of_false (ne_of_isGuest (isGuest_mapReg reg) reserved).symm id

@[simp] theorem isGuest_mapRegType
    (reg : Fadec.Register)
    (type : Fadec.RegisterType) :
    isGuest (mapRegType reg type) = true := by
  cases type <;> simp [mapRegType, mapRegHigh]

end Helper
end Oxtra

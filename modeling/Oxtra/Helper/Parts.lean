import Oxtra.Encoding.Effects
import Oxtra.Helper

/-!
# Parts of registers

What the code that moves a value into a part of a register, or loads it from
there, does to the register.
-/

namespace Oxtra
namespace Helper

open RiscV
open Encoding

namespace RegisterAccess

/-! ## Reading and merging -/

/-- Number of bits of a part. -/
def bits : RegisterAccess -> Nat
  | qword => 64
  | dword => 32
  | word => 16
  | lbyte | hbyte => 8

/-- The part of a register, at the low end of a word. -/
def part (access : RegisterAccess) (value : Word) : Word :=
  match access with
  | qword => value
  | dword => (value.setWidth 32).setWidth 64
  | word => (value.setWidth 16).setWidth 64
  | lbyte => (value.setWidth 8).setWidth 64
  | hbyte => (value.extractLsb' 8 8).setWidth 64

/-- A register after the low bits of a word are written to a part of it.  A
write of 32 bits clears the others. -/
def merge (access : RegisterAccess) (old value : Word) : Word :=
  match access with
  | qword => value
  | dword => (value.setWidth 32).setWidth 64
  | word => old.extractLsb' 16 48 ++ value.setWidth 16
  | lbyte => old.extractLsb' 8 56 ++ value.setWidth 8
  | hbyte => old.extractLsb' 16 48 ++ value.setWidth 8 ++ old.setWidth 8

/-- Only the bits of the part are written. -/
theorem merge_congr
    (access : RegisterAccess)
    (old : Word)
    {first second : Word}
    (same : first.setWidth access.bits = second.setWidth access.bits) :
    access.merge old first = access.merge old second := by
  cases access
  case qword =>
    simpa [bits, merge] using same
  all_goals
    simp only [bits] at same
    simp only [merge, same]

theorem ofSize_ne_hbyte (size : Fadec.OperandSize) : ofSize size ≠ hbyte := by
  cases size <;> decide

/-- All parts but the high byte are at the low end. -/
theorem setWidth_part
    {access : RegisterAccess}
    (notHigh : access ≠ .hbyte)
    (value : Word) :
    (access.part value).setWidth access.bits =
      value.setWidth access.bits := by
  cases access with
  | hbyte => exact absurd rfl notHigh
  | _ => simp [part, bits]

/-- The low end of a register has what is written there. -/
theorem merge_setWidth
    {access : RegisterAccess}
    (notHigh : access ≠ .hbyte)
    (old value : Word) :
    (access.merge old value).setWidth access.bits =
      value.setWidth access.bits := by
  cases access with
  | hbyte => exact absurd rfl notHigh
  | word | lbyte => exact BitVec.setWidth_append_eq_right
  | _ => simp [merge, bits]

theorem extract_merge_hbyte (old value : Word) :
    (hbyte.merge old value).extractLsb' 8 8 = value.setWidth 8 := by
  apply BitVec.eq_of_getLsbD_eq
  intro index inside
  simp only [merge, BitVec.getLsbD_append, BitVec.getLsbD_extractLsb',
    BitVec.getLsbD_setWidth]
  grind

/-- Exactly the bits of the part are written. -/
theorem merge_eq_iff
    (access : RegisterAccess)
    (old first second : Word) :
    access.merge old first = access.merge old second ↔
      first.setWidth access.bits = second.setWidth access.bits := by
  refine ⟨fun same => ?_, access.merge_congr old⟩
  by_cases high : access = .hbyte
  · subst high
    have written := congrArg (BitVec.extractLsb' 8 8) same
    rw [extract_merge_hbyte, extract_merge_hbyte] at written
    exact written
  · rw [← merge_setWidth high old first, same, merge_setWidth high]

/-- What was written to the part before is lost. -/
theorem merge_merge
    {access : RegisterAccess}
    (notHigh : access ≠ .hbyte)
    (old first second : Word) :
    access.merge (access.merge old first) second = access.merge old second := by
  cases access with
  | hbyte => exact absurd rfl notHigh
  | word | lbyte => simp only [merge, BitVec.extractLsb'_append_eq_left]
  | _ => rfl

/-- A word is its own upper part over its lower part. -/
theorem eq_append_iff
    {high low : Nat}
    (value : BitVec (high + low))
    (upper : BitVec high) :
    value = upper ++ value.setWidth low ↔
      upper = value.extractLsb' low high := by
  constructor
  · intro same
    rw [same]
    exact BitVec.extractLsb'_append_eq_left.symm
  · intro same
    rw [same, BitVec.setWidth_eq_extractLsb' (by omega)]
    exact BitVec.extractLsb'_append_extractLsb'.symm

/-- Writing two bytes of a word writes the whole word if the rest is the
same. -/
theorem eq_merge_word_iff (old value : Word) :
    value = word.merge old value ↔
      old.extractLsb' 16 48 = value.extractLsb' 16 48 :=
  @eq_append_iff 48 16 value (old.extractLsb' 16 48)

/-- Writing four bytes of a word writes the whole word if the rest is zero. -/
theorem eq_merge_dword_iff (old value : Word) :
    value = dword.merge old value ↔ value.extractLsb' 32 32 = 0 := by
  have cut : dword.merge old value = 0#32 ++ value.setWidth 32 :=
    BitVec.setWidth_eq_append (by decide)
  rw [cut]
  exact (@eq_append_iff 32 32 value 0#32).trans eq_comm

end RegisterAccess

/-! ## `move_to_register` -/

section MoveToRegister

variable {dest src temp : Register} (pc : Word) (state : State)

theorem shift_amounts :
    ((8 : BitVec 8).setWidth 6).toNat = 8 ∧
      ((16 : BitVec 8).setWidth 6).toNat = 16 ∧
      ((32 : BitVec 8).setWidth 6).toNat = 32 ∧
      ((48 : BitVec 8).setWidth 6).toNat = 48 ∧
      ((56 : BitVec 8).setWidth 6).toNat = 56 := by
  decide

theorem merge_dword (old value : Word) :
    (value <<< 32) >>> 32 = RegisterAccess.dword.merge old value := by
  apply BitVec.eq_of_getLsbD_eq
  intro index inside
  simp only [RegisterAccess.merge, BitVec.getLsbD_ushiftRight,
    BitVec.getLsbD_shiftLeft, BitVec.getLsbD_setWidth]
  grind

/-- The low half of a word is exchanged. -/
theorem merge_word (old value : Word) :
    (((value ^^^ old) <<< 48) >>> 48) ^^^ old =
      RegisterAccess.word.merge old value := by
  apply BitVec.eq_of_getLsbD_eq
  intro index inside
  simp only [RegisterAccess.merge, BitVec.getLsbD_xor,
    BitVec.getLsbD_ushiftRight, BitVec.getLsbD_shiftLeft,
    BitVec.getLsbD_append, BitVec.getLsbD_extractLsb', BitVec.getLsbD_setWidth]
  grind

theorem merge_hbyte (old value : Word) :
    ((((old >>> 8) ^^^ value) <<< 56) >>> 48) ^^^ old =
      RegisterAccess.hbyte.merge old value := by
  apply BitVec.eq_of_getLsbD_eq
  intro index inside
  simp only [RegisterAccess.merge, BitVec.getLsbD_xor,
    BitVec.getLsbD_ushiftRight, BitVec.getLsbD_shiftLeft,
    BitVec.getLsbD_append, BitVec.getLsbD_extractLsb', BitVec.getLsbD_setWidth]
  grind

/-- The mask for the lowest byte. -/
theorem byteMask :
    signedImm (0xff : BitVec 16) = (BitVec.allOnes 8).setWidth 64 ∧
      signedImm (-0x100 : BitVec 16) = ~~~(BitVec.allOnes 8).setWidth 64 := by
  decide

theorem merge_lbyte (old value : Word) :
    (old &&& signedImm (-0x100 : BitVec 16)) |||
        (value &&& signedImm (0xff : BitVec 16)) =
      RegisterAccess.lbyte.merge old value := by
  rw [byteMask.1, byteMask.2]
  apply BitVec.eq_of_getLsbD_eq
  intro index inside
  simp only [RegisterAccess.merge, BitVec.getLsbD_or, BitVec.getLsbD_and,
    BitVec.getLsbD_not, BitVec.getLsbD_append, BitVec.getLsbD_extractLsb',
    BitVec.getLsbD_setWidth, BitVec.getLsbD_allOnes]
  grind

theorem moveToRegister_computesInto
    (access : RegisterAccess)
    (cleared : Bool) :
    ComputesInto [dest, temp]
      (moveToRegister dest src access temp cleared) := by
  unfold moveToRegister
  cases access <;> simp only [] <;> try split
  all_goals
    repeat' first
      | exact ComputesInto.nil
      | refine ComputesInto.cons_iff.mpr
          ⟨Inst.computesInto_of_target rfl rfl (by simp), ?_⟩

/-- A part of the destination becomes the low part of the source. -/
theorem moveToRegister_value
    (destNonzero : dest ≠ .zero)
    (tempNonzero : temp ≠ .zero)
    (tempDest : temp ≠ dest)
    (tempSrc : temp ≠ src)
    {access : RegisterAccess}
    (apart : access = .lbyte -> src ≠ dest) :
    (applyAll pc state (moveToRegister dest src access temp false)).get dest =
      access.merge (state.get dest) (state.get src) := by
  obtain ⟨eight, -, half, fortyEight, fiftySix⟩ := shift_amounts
  cases access with
  | qword =>
      by_cases same : src = dest
      · simp [moveToRegister, same, RegisterAccess.merge]
      · simp [moveToRegister, same, RegisterAccess.merge,
          State.set_get_self _ _ destNonzero]
  | dword =>
      simp only [moveToRegister, applyAll_cons, applyAll_nil, apply_slli,
        apply_srli, State.set_get_self _ _ destNonzero, half]
      exact merge_dword _ _
  | word =>
      simp only [moveToRegister, Bool.false_eq_true, if_false, applyAll_cons,
        applyAll_nil, apply_slli, apply_srli, apply_xor,
        State.set_get_self _ _ destNonzero,
        State.set_get_self _ _ tempNonzero, State.set_set,
        State.set_get_of_ne _ _ tempDest.symm, fortyEight, merge_word]
  | lbyte =>
      simp only [moveToRegister, Bool.false_eq_true, if_false, applyAll_cons,
        applyAll_nil, apply_andi, apply_or,
        State.set_get_self _ _ destNonzero,
        State.set_get_self _ _ tempNonzero,
        State.set_get_of_ne _ _ tempDest.symm,
        State.set_get_of_ne _ _ (apart rfl), merge_lbyte]
  | hbyte =>
      simp only [moveToRegister, applyAll_cons, applyAll_nil, apply_slli,
        apply_srli, apply_xor, State.set_get_self _ _ destNonzero,
        State.set_get_self _ _ tempNonzero, State.set_set,
        State.set_get_of_ne _ _ tempDest.symm,
        State.set_get_of_ne _ _ tempSrc.symm, eight, fortyEight, fiftySix,
        merge_hbyte]

/-- A source without further bits is merged as it is. -/
theorem moveToRegister_cleared
    (destNonzero : dest ≠ .zero)
    (srcDest : src ≠ dest)
    {access : RegisterAccess}
    (notHigh : access ≠ .hbyte)
    (short : ((state.get src).setWidth access.bits).setWidth 64 =
      state.get src) :
    (applyAll pc state (moveToRegister dest src access temp true)).get dest =
      access.merge (state.get dest) (state.get src) := by
  obtain ⟨-, sixteen, half, -, -⟩ := shift_amounts
  cases access with
  | hbyte => exact absurd rfl notHigh
  | qword =>
      simp [moveToRegister, srcDest, RegisterAccess.merge,
        State.set_get_self _ _ destNonzero]
  | dword =>
      simp only [moveToRegister, applyAll_cons, applyAll_nil, apply_slli,
        apply_srli, State.set_get_self _ _ destNonzero, half]
      exact merge_dword _ _
  | word =>
      simp only [moveToRegister, if_true, applyAll_cons, applyAll_nil,
        apply_slli, apply_srli, apply_or, State.set_get_self _ _ destNonzero,
        State.set_set, State.set_get_of_ne _ _ srcDest, sixteen]
      rw [← short]
      apply BitVec.eq_of_getLsbD_eq
      intro index inside
      simp only [RegisterAccess.merge, RegisterAccess.bits, BitVec.getLsbD_or,
        BitVec.getLsbD_shiftLeft, BitVec.getLsbD_ushiftRight,
        BitVec.getLsbD_append, BitVec.getLsbD_extractLsb',
        BitVec.getLsbD_setWidth]
      grind
  | lbyte =>
      simp only [moveToRegister, if_true, applyAll_cons, applyAll_nil,
        apply_andi, apply_or, State.set_get_self _ _ destNonzero,
        State.set_get_of_ne _ _ srcDest]
      have masked : state.get src &&& signedImm (0xff : BitVec 16) =
          state.get src := by
        rw [byteMask.1, ← short]
        apply BitVec.eq_of_getLsbD_eq
        intro index inside
        simp only [RegisterAccess.bits, BitVec.getLsbD_and,
          BitVec.getLsbD_setWidth, BitVec.getLsbD_allOnes]
        grind
      rw [← merge_lbyte, masked]

end MoveToRegister

end Helper
end Oxtra

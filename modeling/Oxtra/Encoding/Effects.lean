import Oxtra.Encoding
import Oxtra.Library.RiscV.Trace

/-!
# Effects of the encoded instructions

What the instructions that only compute, load or store do to the state, with
the immediates as they are passed to the encoding functions.
-/

namespace Oxtra
namespace Encoding

open RiscV

/-- An immediate of twelve bits as a signed number. -/
def signedImm {width : Nat} (imm : BitVec width) : Word :=
  (imm.setWidth 12).signExtend 64

/-- The upper bits of an immediate do not matter. -/
@[simp] theorem signedImm_setWidth
    {width : Nat}
    (imm : BitVec width)
    {field : Nat}
    (wide : 12 ≤ field) :
    signedImm (imm.setWidth field) = signedImm imm := by
  rw [signedImm, signedImm, BitVec.setWidth_setWidth_of_le imm wide]

/-- A small number is its own immediate. -/
theorem signedImm_of_small
    {value : Word}
    (lower : -0x800 ≤ value.toInt)
    (upper : value.toInt < 0x800) :
    signedImm value = value := by
  have divides : 2 ^ 12 ∣ 2 ^ 64 := by decide
  apply BitVec.eq_of_toInt_eq
  rw [signedImm, BitVec.toInt_signExtend_of_le (by decide),
    BitVec.toInt_setWidth, ← Int.bmod_bmod_of_dvd divides,
    ← BitVec.toInt_eq_toNat_bmod]
  exact Int.bmod_eq_of_le (by omega) (by omega)

section Effects

variable (pc : Word) (state : State) (rd rs1 rs2 : Register)

@[simp] theorem apply_lui (imm : BitVec 32) :
    (lui rd imm).apply pc state =
      state.set rd ((imm.setWidth 20 ++ 0#12).signExtend 64) := rfl

@[simp] theorem apply_load (kind : Load) (imm : BitVec 16) :
    (load kind rd rs1 imm).apply pc state =
      state.set rd (kind.eval state.mem (state.get rs1 + signedImm imm)) := rfl

@[simp] theorem apply_store (kind : Store) (imm : BitVec 32) :
    (store kind rs1 rs2 imm).apply pc state =
      state.store (state.get rs1 + signedImm imm) kind.width.bytes
        (state.get rs2) := rfl

@[simp] theorem apply_addi (imm : BitVec 16) :
    (addi rd rs1 imm).apply pc state =
      state.set rd (state.get rs1 + signedImm imm) := rfl

@[simp] theorem apply_sltiu (imm : BitVec 16) :
    (sltiu rd rs1 imm).apply pc state =
      state.set rd (bit ((state.get rs1).ult (signedImm imm))) := rfl

@[simp] theorem apply_xori (imm : BitVec 16) :
    (xori rd rs1 imm).apply pc state =
      state.set rd (state.get rs1 ^^^ signedImm imm) := rfl

@[simp] theorem apply_ori (imm : BitVec 16) :
    (ori rd rs1 imm).apply pc state =
      state.set rd (state.get rs1 ||| signedImm imm) := rfl

@[simp] theorem apply_andi (imm : BitVec 16) :
    (andi rd rs1 imm).apply pc state =
      state.set rd (state.get rs1 &&& signedImm imm) := rfl

@[simp] theorem apply_slli (shamt : BitVec 8) :
    (slli rd rs1 shamt).apply pc state =
      state.set rd (state.get rs1 <<< (shamt.setWidth 6).toNat) := rfl

@[simp] theorem apply_srli (shamt : BitVec 8) :
    (srli rd rs1 shamt).apply pc state =
      state.set rd (state.get rs1 >>> (shamt.setWidth 6).toNat) := rfl

@[simp] theorem apply_srai (shamt : BitVec 8) :
    (srai rd rs1 shamt).apply pc state =
      state.set rd ((state.get rs1).sshiftRight (shamt.setWidth 6).toNat) :=
  rfl

@[simp] theorem apply_add :
    (add rd rs1 rs2).apply pc state =
      state.set rd (state.get rs1 + state.get rs2) := rfl

@[simp] theorem apply_sub :
    (sub rd rs1 rs2).apply pc state =
      state.set rd (state.get rs1 - state.get rs2) := rfl

@[simp] theorem apply_xor :
    (xor rd rs1 rs2).apply pc state =
      state.set rd (state.get rs1 ^^^ state.get rs2) := rfl

@[simp] theorem apply_or :
    (or rd rs1 rs2).apply pc state =
      state.set rd (state.get rs1 ||| state.get rs2) := rfl

@[simp] theorem apply_and :
    (and rd rs1 rs2).apply pc state =
      state.set rd (state.get rs1 &&& state.get rs2) := rfl

@[simp] theorem apply_sll :
    (sll rd rs1 rs2).apply pc state =
      state.set rd (state.get rs1 <<< shiftAmount (state.get rs2)) := rfl

@[simp] theorem apply_srl :
    (srl rd rs1 rs2).apply pc state =
      state.set rd (state.get rs1 >>> shiftAmount (state.get rs2)) := rfl

@[simp] theorem apply_sra :
    (sra rd rs1 rs2).apply pc state =
      state.set rd
        ((state.get rs1).sshiftRight (shiftAmount (state.get rs2))) := rfl

/-! ### Multiplication and division -/

@[simp] theorem apply_mul :
    (mul rd rs1 rs2).apply pc state =
      state.set rd (state.get rs1 * state.get rs2) := rfl

@[simp] theorem apply_mulh :
    (mulh rd rs1 rs2).apply pc state =
      state.set rd (((state.get rs1).signExtend 128 *
        (state.get rs2).signExtend 128).extractLsb' 64 64) := rfl

@[simp] theorem apply_mulhu :
    (mulhu rd rs1 rs2).apply pc state =
      state.set rd (((state.get rs1).setWidth 128 *
        (state.get rs2).setWidth 128).extractLsb' 64 64) := rfl

@[simp] theorem apply_div :
    (div rd rs1 rs2).apply pc state =
      state.set rd (if state.get rs2 = 0 then -1
        else (state.get rs1).sdiv (state.get rs2)) := rfl

@[simp] theorem apply_divu :
    (divu rd rs1 rs2).apply pc state =
      state.set rd (if state.get rs2 = 0 then -1
        else state.get rs1 / state.get rs2) := rfl

@[simp] theorem apply_rem :
    (rem rd rs1 rs2).apply pc state =
      state.set rd (if state.get rs2 = 0 then state.get rs1
        else (state.get rs1).srem (state.get rs2)) := rfl

@[simp] theorem apply_remu :
    (remu rd rs1 rs2).apply pc state =
      state.set rd (if state.get rs2 = 0 then state.get rs1
        else state.get rs1 % state.get rs2) := rfl

/-! ### Operations on 32 bits -/

@[simp] theorem apply_addw :
    (addw rd rs1 rs2).apply pc state =
      state.set rd (sext ((state.get rs1).setWidth 32 +
        (state.get rs2).setWidth 32)) := rfl

@[simp] theorem apply_sllw :
    (sllw rd rs1 rs2).apply pc state =
      state.set rd (sext ((state.get rs1).setWidth 32 <<<
        ((state.get rs2).toNat % 32))) := rfl

@[simp] theorem apply_srlw :
    (srlw rd rs1 rs2).apply pc state =
      state.set rd (sext ((state.get rs1).setWidth 32 >>>
        ((state.get rs2).toNat % 32))) := rfl

@[simp] theorem apply_sraw :
    (sraw rd rs1 rs2).apply pc state =
      state.set rd (sext (((state.get rs1).setWidth 32).sshiftRight
        ((state.get rs2).toNat % 32))) := rfl

@[simp] theorem apply_slliw (shamt : BitVec 8) :
    (slliw rd rs1 shamt).apply pc state =
      state.set rd (sext ((state.get rs1).setWidth 32 <<<
        (shamt.setWidth 5).toNat)) := rfl

@[simp] theorem apply_srliw (shamt : BitVec 8) :
    (srliw rd rs1 shamt).apply pc state =
      state.set rd (sext ((state.get rs1).setWidth 32 >>>
        (shamt.setWidth 5).toNat)) := rfl

/-! ### Pseudoinstructions -/

@[simp] theorem apply_mv :
    (mv rd rs1).apply pc state = state.set rd (state.get rs1) := by
  have zero : signedImm (0 : BitVec 16) = 0#64 := by decide
  rw [mv, apply_addi, zero, BitVec.add_zero]

@[simp] theorem apply_not :
    (not rd rs1).apply pc state = state.set rd (~~~state.get rs1) := by
  have ones : signedImm (-1 : BitVec 16) = BitVec.allOnes 64 := by decide
  rw [not, apply_xori, ones, BitVec.xor_allOnes]

@[simp] theorem apply_neg :
    (neg rd rs1).apply pc state = state.set rd (-state.get rs1) := by
  rw [neg, apply_sub, State.get_zero]
  simp

@[simp] theorem apply_seqz :
    (seqz rd rs1).apply pc state = state.set rd (bit (state.get rs1 == 0)) := by
  have one : signedImm (1 : BitVec 16) = 1 := by decide
  have zero (value : Word) : value.ult 1 = (value == 0) := by
    rw [BitVec.ult_eq_decide, Bool.eq_iff_iff, decide_eq_true_iff, beq_iff_eq,
      BitVec.toNat_eq]
    simp
  rw [seqz, apply_sltiu, one, zero]

@[simp] theorem apply_snez :
    (snez rd rs1).apply pc state = state.set rd (bit (state.get rs1 != 0)) := by
  have zero (value : Word) : (0 : Word).ult value = (value != 0) := by
    rw [BitVec.ult_eq_decide, Bool.eq_iff_iff, decide_eq_true_iff, bne_iff_ne,
      ne_eq, BitVec.toNat_eq]
    simp
    omega
  change state.set rd (bit ((state.get .zero).ult (state.get rs1))) = _
  rw [State.get_zero, zero]

end Effects

/-! ## Loads and stores by their names -/

theorem lb_eq : lb = load .lb := rfl
theorem lh_eq : lh = load .lh := rfl
theorem lw_eq : lw = load .lw := rfl
theorem ld_eq : ld = load .ld := rfl
theorem lbu_eq : lbu = load .lbu := rfl
theorem lhu_eq : lhu = load .lhu := rfl
theorem lwu_eq : lwu = load .lwu := rfl
theorem sb_eq : sb = store .sb := rfl
theorem sh_eq : sh = store .sh := rfl
theorem sw_eq : sw = store .sw := rfl
theorem sd_eq : sd = store .sd := rfl

attribute [simp] lb_eq lh_eq lw_eq ld_eq lbu_eq lhu_eq lwu_eq sb_eq sh_eq
  sw_eq sd_eq

/-! ## Accesses -/

section Accesses

variable {reserved base : Register} (visible : base ≠ reserved)
variable (register : Register) (state : State) (rest : List (Inst × State))

theorem accessesApart_silent
    {inst : Inst}
    (noBase : inst.base = none) :
    accessesApart reserved ((inst, state) :: rest) =
      accessesApart reserved rest := by
  simp only [accessesApart, List.filterMap_cons, noBase, reduceCtorEq,
    if_false, Inst.access_of_base_none noBase]

include visible

theorem accessesApart_load (kind : Load) (imm : BitVec 16) :
    accessesApart reserved ((load kind register base imm, state) :: rest) =
      .load (state.get base + signedImm imm) kind.width.bytes ::
        accessesApart reserved rest := by
  simp only [accessesApart, List.filterMap_cons, load, Inst.base,
    Option.some.injEq, if_neg visible, Inst.access]
  rfl

theorem accessesApart_store (kind : Store) (imm : BitVec 32) :
    accessesApart reserved ((store kind base register imm, state) :: rest) =
      .store (state.get base + signedImm imm) kind.width.bytes
          ((state.get register).toNat % 256 ^ kind.width.bytes) ::
        accessesApart reserved rest := by
  simp only [accessesApart, List.filterMap_cons, store, Inst.base,
    Option.some.injEq, if_neg visible, Inst.access]
  rfl

end Accesses

end Encoding
end Oxtra

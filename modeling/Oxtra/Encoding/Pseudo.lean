import Oxtra.Encoding.Effects
import Oxtra.Library.RiscV.Encoding
import Oxtra.Library.RiscV.Program

/-!
# Pseudoinstructions

What the words of the pseudoinstructions do at their addresses, compared with
their documentation.  All of them do what is documented but `BGTZ`, which is
encoded as a comparison for equality.
-/

namespace Oxtra
namespace Encoding

open RiscV

/-! ## Words -/

/-- The fields of a word, as `rtype` fills them. -/
def rtypeWord
    (opcode : BitVec 7)
    (rd : Register)
    (funct3 : BitVec 3)
    (rs1 rs2 : Register)
    (funct7 : BitVec 7) : BitVec 32 :=
  funct7 ++ rs2.number ++ rs1.number ++ funct3 ++ rd.number ++ opcode

@[inherit_doc rtypeWord]
def itypeWord
    (opcode : BitVec 7)
    (rd : Register)
    (funct3 : BitVec 3)
    (rs1 : Register)
    (imm : BitVec 16) : BitVec 32 :=
  imm.setWidth 12 ++ rs1.number ++ funct3 ++ rd.number ++ opcode

/-- The fields of the word of a branch, with the offset in four parts. -/
def btypeWord
    (opcode : BitVec 7)
    (funct3 : BitVec 3)
    (rs1 rs2 : Register)
    (imm : BitVec 32) : BitVec 32 :=
  ((imm >>> 12) &&& 1).setWidth 1 ++ ((imm >>> 5) &&& 0x3f).setWidth 6 ++
    rs2.number ++ rs1.number ++ funct3 ++
    ((imm >>> 1) &&& 0xf).setWidth 4 ++ ((imm >>> 11) &&& 1).setWidth 1 ++
    opcode

@[inherit_doc btypeWord]
def jtypeWord
    (opcode : BitVec 7)
    (rd : Register)
    (imm : BitVec 32) : BitVec 32 :=
  ((imm >>> 20) &&& 1).setWidth 1 ++ ((imm >>> 1) &&& 0x3ff).setWidth 10 ++
    ((imm >>> 11) &&& 1).setWidth 1 ++ ((imm >>> 12) &&& 0xff).setWidth 8 ++
    rd.number ++ opcode

/-- A shifted and masked part of an immediate. -/
theorem maskedField
    (imm : BitVec 32)
    (start : Nat)
    {mask : BitVec 32}
    {bits : Nat}
    (short : bits ≤ 32)
    (isMask : mask = BitVec.ofNat 32 (2 ^ bits - 1)) :
    ((imm >>> start) &&& mask).setWidth bits = imm.extractLsb' start bits := by
  have positive := Nat.two_pow_pos bits
  have bound : 2 ^ bits ≤ 2 ^ 32 := Nat.pow_le_pow_right (by decide) short
  have fits : 2 ^ bits - 1 < 2 ^ 32 := by omega
  subst isMask
  apply BitVec.eq_of_toNat_eq
  rw [BitVec.toNat_setWidth, BitVec.toNat_and, BitVec.toNat_ushiftRight,
    BitVec.toNat_ofNat, Nat.mod_eq_of_lt fits,
    Nat.and_two_pow_sub_one_eq_mod, Nat.mod_mod, BitVec.extractLsb'_toNat]

theorem encode_op (kind : Op) (rd rs1 rs2 : Register) :
    (Inst.op kind rd rs1 rs2).encode =
      rtypeWord 51 rd kind.funct3 rs1 rs2 kind.funct7 := by
  apply BitVec.eq_of_toNat_eq
  rw [Inst.encode, Format.rtype_toNat]
  simp only [rtypeWord, Format.toNat_append]
  omega

theorem encode_opImm (kind : OpImm) (rd rs1 : Register) (imm : BitVec 16) :
    (opImm kind rd rs1 imm).encode =
      itypeWord 19 rd kind.funct3 rs1 imm := by
  apply BitVec.eq_of_toNat_eq
  rw [opImm, Inst.encode, Format.itype_toNat]
  simp only [itypeWord, Format.toNat_append]
  omega

theorem encode_btype
    (kind : Branch)
    (rs1 rs2 : Register)
    (offset : BitVec 32) :
    (btype kind rs1 rs2 offset).encode =
      btypeWord 99 kind.funct3 rs1 rs2 offset := by
  have imm12 := @maskedField offset 12 1 1 (by decide) rfl
  have imm10 := @maskedField offset 5 0x3f 6 (by decide) rfl
  have imm4 := @maskedField offset 1 0xf 4 (by decide) rfl
  have imm11 := @maskedField offset 11 1 1 (by decide) rfl
  rw [btypeWord, imm12, imm10, imm4, imm11]
  apply BitVec.eq_of_toNat_eq
  rw [btype, Inst.encode, Format.rtype_toNat]
  simp only [Format.branchHigh, Format.branchLow, Format.toNat_append,
    Format.toNat_extractLsb']
  omega

theorem encode_jal (rd : Register) (offset : BitVec 32) :
    (jal rd offset).encode = jtypeWord 111 rd offset := by
  have imm20 := @maskedField offset 20 1 1 (by decide) rfl
  have imm10 := @maskedField offset 1 0x3ff 10 (by decide) rfl
  have imm11 := @maskedField offset 11 1 1 (by decide) rfl
  have imm19 := @maskedField offset 12 0xff 8 (by decide) rfl
  have parts
      (start len source : Nat)
      (follows : source = 1 + start)
      (inside : start + len ≤ 20) :
      (offset.extractLsb' 1 20).extractLsb' start len =
        offset.extractLsb' source len := by
    subst follows
    apply BitVec.eq_of_getLsbD_eq
    intro index bound
    have insidePart : start + index < 20 := by omega
    simp only [BitVec.getLsbD_extractLsb', insidePart, Nat.add_assoc,
      decide_true, Bool.true_and]
  rw [jtypeWord, imm20, imm10, imm11, imm19]
  apply BitVec.eq_of_toNat_eq
  rw [jal, Inst.encode, Format.utype_toNat, Format.jumpParts,
    parts 19 1 20 rfl (by decide), parts 0 10 1 rfl (by decide),
    parts 10 1 11 rfl (by decide), parts 11 8 12 rfl (by decide)]
  simp only [Format.toNat_append]
  omega

/-! ## Calls -/

/-- A call of a function that encodes a pseudoinstruction. -/
inductive Pseudo where
  | nop
  | mv (rd rs : Register)
  | not (rd rs : Register)
  | neg (rd rs : Register)
  | seqz (rd rs : Register)
  | snez (rd rs : Register)
  | sltz (rd rs : Register)
  | sgtz (rd rs : Register)
  | beqz (rs : Register) (offset : BitVec 32)
  | bnqz (rs : Register) (offset : BitVec 32)
  | blez (rs : Register) (offset : BitVec 32)
  | bgez (rs : Register) (offset : BitVec 32)
  | bltz (rs : Register) (offset : BitVec 32)
  | bgtz (rs : Register) (offset : BitVec 32)
  | bgt (rs1 rs2 : Register) (offset : BitVec 32)
  | ble (rs1 rs2 : Register) (offset : BitVec 32)
  | bgtu (rs1 rs2 : Register) (offset : BitVec 32)
  | bleu (rs1 rs2 : Register) (offset : BitVec 32)
  | j (offset : BitVec 32)
  deriving DecidableEq, Repr

namespace Pseudo

/-- The encoded instruction. -/
def inst : Pseudo -> Inst
  | nop => Encoding.nop
  | mv rd rs => Encoding.mv rd rs
  | not rd rs => Encoding.not rd rs
  | neg rd rs => Encoding.neg rd rs
  | seqz rd rs => Encoding.seqz rd rs
  | snez rd rs => Encoding.snez rd rs
  | sltz rd rs => Encoding.sltz rd rs
  | sgtz rd rs => Encoding.sgtz rd rs
  | beqz rs offset => Encoding.beqz rs offset
  | bnqz rs offset => Encoding.bnqz rs offset
  | blez rs offset => Encoding.blez rs offset
  | bgez rs offset => Encoding.bgez rs offset
  | bltz rs offset => Encoding.bltz rs offset
  | bgtz rs offset => Encoding.bgtz rs offset
  | bgt rs1 rs2 offset => Encoding.bgt rs1 rs2 offset
  | ble rs1 rs2 offset => Encoding.ble rs1 rs2 offset
  | bgtu rs1 rs2 offset => Encoding.bgtu rs1 rs2 offset
  | bleu rs1 rs2 offset => Encoding.bleu rs1 rs2 offset
  | j offset => Encoding.j offset

/-- The encoded word. -/
def word (pseudo : Pseudo) : BitVec 32 := pseudo.inst.encode

/-- The format of the instruction can represent the offset, which is even. -/
def Representable : Pseudo -> Prop
  | beqz _ offset | bnqz _ offset | blez _ offset | bgez _ offset
  | bltz _ offset | bgtz _ offset | bgt _ _ offset | ble _ _ offset
  | bgtu _ _ offset | bleu _ _ offset =>
      -2 ^ 12 ≤ offset.toInt ∧ offset.toInt < 2 ^ 12 ∧ offset.toInt % 2 = 0
  | j offset =>
      -2 ^ 20 ≤ offset.toInt ∧ offset.toInt < 2 ^ 20 ∧ offset.toInt % 2 = 0
  | _ => True

/-- The register that is written, with its documented value. -/
def result (state : State) : Pseudo -> Option (Register × Word)
  | mv rd rs => some (rd, state.get rs)
  | not rd rs => some (rd, ~~~state.get rs)
  | neg rd rs => some (rd, -state.get rs)
  | seqz rd rs => some (rd, if state.get rs = 0 then 1 else 0)
  | snez rd rs => some (rd, if state.get rs ≠ 0 then 1 else 0)
  | sltz rd rs => some (rd, if (state.get rs).toInt < 0 then 1 else 0)
  | sgtz rd rs => some (rd, if 0 < (state.get rs).toInt then 1 else 0)
  | _ => none

/-- The documented comparison of a branch, with its offset. -/
def comparison (state : State) : Pseudo -> Option (Bool × BitVec 32)
  | beqz rs offset => some (state.get rs = 0, offset)
  | bnqz rs offset => some (state.get rs ≠ 0, offset)
  | blez rs offset => some ((state.get rs).toInt ≤ 0, offset)
  | bgez rs offset => some (0 ≤ (state.get rs).toInt, offset)
  | bltz rs offset => some ((state.get rs).toInt < 0, offset)
  | bgtz rs offset => some (0 < (state.get rs).toInt, offset)
  | bgt rs1 rs2 offset =>
      some ((state.get rs2).toInt < (state.get rs1).toInt, offset)
  | ble rs1 rs2 offset =>
      some ((state.get rs1).toInt ≤ (state.get rs2).toInt, offset)
  | bgtu rs1 rs2 offset =>
      some ((state.get rs2).toNat < (state.get rs1).toNat, offset)
  | bleu rs1 rs2 offset =>
      some ((state.get rs1).toNat ≤ (state.get rs2).toNat, offset)
  | j offset => some (true, offset)
  | _ => none

/-- The documented address and state behind the instruction. -/
def documented (pseudo : Pseudo) (pc : Word) (state : State) : Word × State :=
  (match pseudo.comparison state with
    | some (true, offset) => pc + BitVec.ofInt 64 offset.toInt
    | _ => pc + 4,
    match pseudo.result state with
    | some (rd, value) => state.set rd value
    | none => state)

/-- The word is decoded to an instruction that leads to the documented address
with the documented registers, and keeps the memory. -/
def Means (pseudo : Pseudo) (pc : Word) (state : State) : Prop :=
  ∃ inst, Inst.decode pseudo.word = some inst ∧
    (inst.executeAt pc state).1 = (pseudo.documented pc state).1 ∧
    (inst.executeAt pc state).2.mem = state.mem ∧
    ∀ register, (inst.executeAt pc state).2.get register =
      (pseudo.documented pc state).2.get register

/-- `BGTZ` compares for equality: it does not branch for a positive number,
and branches for zero, unless the branch leads to the next instruction. -/
def BranchesRight (state : State) : Pseudo -> Prop
  | bgtz rs offset => (state.get rs).toInt < 0 ∨ offset = 4
  | _ => True

/-! ## Meaning -/

section Meaning

variable (pc : Word) (state : State)

/-- A branch leads to its offset or to the next instruction. -/
theorem btype_executeAt
    (kind : Branch)
    (rs1 rs2 : Register)
    {offset : BitVec 32}
    (lower : -2 ^ 12 ≤ offset.toInt)
    (upper : offset.toInt < 2 ^ 12)
    (even : offset.toInt % 2 = 0) :
    (btype kind rs1 rs2 offset).executeAt pc state =
      (if kind.eval (state.get rs1) (state.get rs2) then
        pc + BitVec.ofInt 64 offset.toInt
      else
        pc + 4, state) := by
  have halves : 2 * (offset.extractLsb' 1 12).toInt = offset.toInt := by
    rw [BitVec.toInt_extractLsb', Nat.shiftRight_eq_div_pow]
    rw [BitVec.toInt_eq_toNat_cond] at lower upper even ⊢
    rw [Int.bmod_def]
    omega
  rw [btype, Inst.executeAt, halves]

/-- A jump leads to its offset. -/
theorem jal_executeAt
    (rd : Register)
    {offset : BitVec 32}
    (lower : -2 ^ 20 ≤ offset.toInt)
    (upper : offset.toInt < 2 ^ 20)
    (even : offset.toInt % 2 = 0) :
    (jal rd offset).executeAt pc state =
      (pc + BitVec.ofInt 64 offset.toInt, state.set rd (pc + 4)) := by
  have halves : 2 * (offset.extractLsb' 1 20).toInt = offset.toInt := by
    rw [BitVec.toInt_extractLsb', Nat.shiftRight_eq_div_pow]
    rw [BitVec.toInt_eq_toNat_cond] at lower upper even ⊢
    rw [Int.bmod_def]
    omega
  rw [jal, Inst.executeAt, halves]

variable {pc state} {pseudo : Pseudo}

theorem means_iff :
    pseudo.Means pc state ↔
      (pseudo.inst.executeAt pc state).1 = (pseudo.documented pc state).1 ∧
        (pseudo.inst.executeAt pc state).2.mem = state.mem ∧
        ∀ register, (pseudo.inst.executeAt pc state).2.get register =
          (pseudo.documented pc state).2.get register := by
  constructor
  · rintro ⟨inst, decoded, means⟩
    rw [word, Inst.decode_encode] at decoded
    obtain rfl := Option.some.inj decoded
    exact means
  · intro means
    exact ⟨pseudo.inst, Inst.decode_encode _, means⟩

/-- An instruction that computes the documented result. -/
theorem means_of_result
    {rd : Register}
    {value : Word}
    (falls : pseudo.inst.executeAt pc state =
      (pc + 4, pseudo.inst.apply pc state))
    (applies : pseudo.inst.apply pc state = state.set rd value)
    (documents : pseudo.result state = some (rd, value))
    (straight : pseudo.comparison state = none) :
    pseudo.Means pc state := by
  rw [means_iff, documented, falls, applies, documents, straight]
  exact ⟨rfl, rfl, fun _ => rfl⟩

/-- What a branch does and what is documented. -/
theorem means_iff_of_branch
    {kind : Branch}
    {rs1 rs2 : Register}
    {offset : BitVec 32}
    {condition : Bool}
    (lower : -2 ^ 12 ≤ offset.toInt)
    (upper : offset.toInt < 2 ^ 12)
    (even : offset.toInt % 2 = 0)
    (encodes : pseudo.inst = btype kind rs1 rs2 offset)
    (writesNothing : pseudo.result state = none)
    (documents : pseudo.comparison state = some (condition, offset)) :
    pseudo.Means pc state ↔
      condition = kind.eval (state.get rs1) (state.get rs2) ∨ offset = 4 := by
  have target : pc + BitVec.ofInt 64 offset.toInt = pc + 4 ↔ offset = 4 := by
    rw [BitVec.add_right_inj, ← BitVec.toInt_inj, ← BitVec.toInt_inj,
      BitVec.toInt_ofInt]
    have four : (4 : Word).toInt = 4 := by decide
    have fourOffset : (4 : BitVec 32).toInt = 4 := by decide
    rw [four, fourOffset, Int.bmod_def]
    omega
  rw [means_iff, documented, encodes, documents, writesNothing,
    btype_executeAt _ _ _ _ _ lower upper even]
  simp only [implies_true, and_true]
  rw [← target]
  cases condition <;> cases kind.eval (state.get rs1) (state.get rs2) <;>
    simp [eq_comm]

end Meaning

/-- Being positive agrees with being zero for the negative numbers only. -/
theorem positive_eq_iff (value : Word) :
    decide (0 < value.toInt) = ((0 : Word) == value) ↔ value.toInt < 0 := by
  have isZero : (0 : Word) = value ↔ value.toInt = 0 := by
    rw [eq_comm, ← BitVec.toInt_inj]
    rfl
  rw [Bool.eq_iff_iff, decide_eq_true_iff, beq_iff_eq, isZero]
  omega

/-- Every pseudoinstruction does what is documented, apart from `BGTZ`, which
does so for negative numbers only. -/
theorem means_iff_branchesRight
    (pseudo : Pseudo)
    (representable : pseudo.Representable)
    (pc : Word)
    (state : State) :
    pseudo.Means pc state ↔ pseudo.BranchesRight state := by
  have zero : (state.get .zero).toInt = 0 := by
    rw [State.get_zero]
    rfl
  cases pseudo with
  | nop =>
      refine iff_of_true (means_iff.2 ⟨rfl, rfl, fun register => ?_⟩) trivial
      cases register <;> rfl
  | mv rd rs =>
      exact iff_of_true
        (means_of_result rfl (apply_mv pc state rd rs) rfl rfl) trivial
  | not rd rs =>
      exact iff_of_true
        (means_of_result rfl (apply_not pc state rd rs) rfl rfl) trivial
  | neg rd rs =>
      exact iff_of_true
        (means_of_result rfl (apply_neg pc state rd rs) rfl rfl) trivial
  | seqz rd rs =>
      have documents : (seqz rd rs).result state =
          some (rd, bit (state.get rs == 0)) := by
        simp only [result, bit, beq_iff_eq]
      exact iff_of_true (means_of_result rfl
        (apply_seqz pc state rd rs) documents rfl) trivial
  | snez rd rs =>
      have documents : (snez rd rs).result state =
          some (rd, bit (state.get rs != 0)) := by
        simp only [result, bit, bne_iff_ne]
      exact iff_of_true (means_of_result rfl
        (apply_snez pc state rd rs) documents rfl) trivial
  | sltz rd rs =>
      have documents : (sltz rd rs).result state =
          some (rd, bit ((state.get rs).slt (state.get .zero))) := by
        simp only [result, bit, BitVec.slt_iff_toInt_lt, zero]
      exact iff_of_true (means_of_result rfl rfl documents rfl) trivial
  | sgtz rd rs =>
      have documents : (sgtz rd rs).result state =
          some (rd, bit ((state.get .zero).slt (state.get rs))) := by
        simp only [result, bit, BitVec.slt_iff_toInt_lt, zero]
      exact iff_of_true (means_of_result rfl rfl documents rfl) trivial
  | beqz rs offset =>
      obtain ⟨lower, upper, even⟩ := representable
      rw [means_iff_of_branch lower upper even rfl rfl rfl]
      refine iff_of_true (Or.inl ?_) trivial
      simp only [Branch.eval, State.get_zero, beq_eq_decide]
  | bnqz rs offset =>
      obtain ⟨lower, upper, even⟩ := representable
      rw [means_iff_of_branch lower upper even rfl rfl rfl]
      refine iff_of_true (Or.inl ?_) trivial
      simp only [Branch.eval, State.get_zero, ne_eq, decide_not]
      rfl
  | bgtz rs offset =>
      obtain ⟨lower, upper, even⟩ := representable
      rw [means_iff_of_branch lower upper even rfl rfl rfl]
      simp only [BranchesRight, Branch.eval, State.get_zero, positive_eq_iff]
  | j offset =>
      obtain ⟨lower, upper, even⟩ := representable
      rw [means_iff, inst, Encoding.j, jal_executeAt _ _ _ lower upper even]
      refine iff_of_true ⟨rfl, rfl, fun register => ?_⟩ trivial
      cases register <;> rfl
  | _ =>
      obtain ⟨lower, upper, even⟩ := representable
      rw [means_iff_of_branch lower upper even rfl rfl rfl]
      refine iff_of_true (Or.inl ?_) trivial
      simp only [Branch.eval, BitVec.slt_eq_decide, BitVec.ult_eq_decide, zero,
        ← decide_not, not_lt]

/-- `BGTZ` of a negative number does not branch, as documented. -/
theorem means_iff_branchesRight_negative :
    (bgtz .t0 8).Representable ∧
      (bgtz .t0 8).Means 0 ⟨fun _ => -1, fun _ => 0⟩ :=
  have representable : (bgtz .t0 8).Representable :=
    ⟨by decide, by decide, by decide⟩
  have branches : (bgtz .t0 8).BranchesRight ⟨fun _ => -1, fun _ => 0⟩ :=
    Or.inl (by decide)
  ⟨representable, (means_iff_branchesRight _ representable _ _).2 branches⟩

/-- `BGTZ` of one does not branch. -/
theorem bgtz_does_not_branch :
    (bgtz .t0 8).Representable ∧
      ¬(bgtz .t0 8).Means 0 ⟨fun _ => 1, fun _ => 0⟩ := by
  have lower : -2 ^ 12 ≤ (8 : BitVec 32).toInt := by decide
  have upper : (8 : BitVec 32).toInt < 2 ^ 12 := by decide
  have even : (8 : BitVec 32).toInt % 2 = 0 := by decide
  refine ⟨⟨lower, upper, even⟩, fun means => ?_⟩
  rw [means_iff_of_branch lower upper even rfl rfl rfl] at means
  revert means
  decide

end Pseudo

end Encoding
end Oxtra

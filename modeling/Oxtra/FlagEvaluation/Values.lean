import Oxtra.FlagEvaluation.Stubs
import Oxtra.Library.WrappedArithmetic

/-!
# Values of the flag routines

Every routine that evaluates a flag returns one or zero, changes nothing but
`t4`, `t5` and `t6`, and looks only at the low bits of the stored values.
-/

namespace Oxtra

open RiscV
open Encoding
open Wrapped

/-! ## Loads of the operands -/

/-- The unsigned number in the low bits of a word. -/
def unsignedPart (width : Width) (value : Word) : Nat :=
  value.toNat % 2 ^ width.bits

/-- The signed number in the low bits of a word. -/
def signedPart (width : Width) (value : Word) : Int :=
  wrap width.bits value.toNat

theorem unsignedPart_lt (width : Width) (value : Word) :
    unsignedPart width value < 2 ^ width.bits :=
  Nat.mod_lt _ (Nat.two_pow_pos _)

theorem fits_signedPart (width : Width) (value : Word) :
    Fits width.bits (signedPart width value) :=
  fits_wrap width.bits_pos _

theorem toInt_setWidth_eq_wrap
    {short long : Nat}
    (le : short ≤ long)
    (value : BitVec long) :
    (value.setWidth short).toInt = wrap short value.toInt := by
  have divides : 2 ^ short ∣ 2 ^ long := Nat.pow_dvd_pow 2 le
  rw [BitVec.toInt_setWidth, BitVec.toInt_eq_toNat_bmod, wrap,
    Int.bmod_bmod_of_dvd divides]

theorem toInt_sext (value : BitVec 32) : (sext value).toInt = value.toInt :=
  BitVec.toInt_signExtend_of_le (by decide)

theorem unsignedLoad_toNat
    (width : Width)
    (mem : Memory)
    (address : Word) :
    ((unsignedLoad width).eval mem address).toNat =
      unsignedPart width (mem.load address 8) := by
  have loaded := mem.load_toNat_eq_mod address width.bytes_le
  rw [← width.two_pow_bits] at loaded
  rw [unsignedPart, ← loaded]
  cases width <;> rfl

theorem signedLoad_toInt
    (width : Width)
    (mem : Memory)
    (address : Word) :
    ((signedLoad width).eval mem address).toInt =
      signedPart width (mem.load address 8) := by
  have loaded := mem.load_toNat_eq_mod address width.bytes_le
  rw [← width.two_pow_bits] at loaded
  have low : wrap width.bits (mem.load address width.bytes).toNat =
      signedPart width (mem.load address 8) := by
    rw [loaded, signedPart, wrap, wrap, Int.natCast_mod, Int.emod_bmod]
  rw [← low]
  have short (bits : Nat) (value : Word) (le : bits ≤ 64) :
      ((value.setWidth bits).signExtend 64).toInt =
        wrap bits value.toNat := by
    rw [BitVec.toInt_signExtend_of_le le, BitVec.toInt_setWidth, wrap]
  cases width
  · exact short 8 _ (by decide)
  · exact short 16 _ (by decide)
  · exact short 32 _ (by decide)
  · exact BitVec.toInt_eq_toNat_bmod _

/-! ## Calls of the routines -/

namespace Stub

/-- Registers that a routine may change. -/
def scratch : List Register := [.t4, .t5, .t6]

/-- A call returns a flag in `t4` and keeps everything but the scratch
registers. -/
def Yields (stub : Stub) (state : State) (flag : Bool) : Prop :=
  ∃ final, stub.run state = some final ∧
    final.get .t4 = bit flag ∧
    final.mem = state.mem ∧
    ∀ register, register ∉ scratch -> final.get register = state.get register

/-- The return address is a possible address of an instruction. -/
def CanReturn (state : State) : Prop :=
  jumpTarget state .ra 0 = state.get .ra

/-- A return leaves the routine. -/
theorem step_ret
    {code : List Inst}
    {index : Nat}
    {state : State}
    (fetch : code[index]? = some ret)
    (canReturn : CanReturn state) :
    environment.step code index state =
      .exit (.left (state.get .ra)
        (state.set .zero (environment.address (index + 1)))) := by
  have executed : environment.execute code index state ret =
      .exit (.left (jumpTarget state .ra 0)
        (state.set .zero (environment.address (index + 1)))) := rfl
  rw [Environment.step_permitted fetch rfl, executed, canReturn]

theorem CanReturn.congr
    {state other : State}
    (canReturn : CanReturn state)
    (same : other.get .ra = state.get .ra) :
    CanReturn other := by
  rw [CanReturn, jumpTarget, same]
  exact canReturn

/-- The instruction computes or loads into a scratch register. -/
def isScratch (inst : Inst) : Bool :=
  inst.isStraight && match inst.target with
    | some register => register ∈ scratch
    | none => false

theorem isScratch_target
    {inst : Inst}
    (isScratch : isScratch inst = true) :
    ∃ register, inst.target = some register ∧ register ∈ scratch := by
  unfold Stub.isScratch at isScratch
  cases target : inst.target with
  | none => simp [target] at isScratch
  | some register =>
      refine ⟨register, rfl, ?_⟩
      simpa [target] using (Bool.and_eq_true_iff.mp isScratch).2

theorem applyAll_get_of_isScratch
    {body : List Inst}
    (isScratch : body.all isScratch = true)
    (pc : Word)
    (state : State)
    {register : Register}
    (kept : register ∉ scratch) :
    (applyAll pc state body).get register = state.get register := by
  apply applyAll_get_of_not_target
  intro inst member equal
  obtain ⟨target, targets, inScratch⟩ :=
    isScratch_target (List.all_eq_true.mp isScratch inst member)
  rw [targets] at equal
  cases equal
  exact kept inScratch

theorem applyAll_mem_of_isScratch
    {body : List Inst}
    (isScratch : body.all isScratch = true)
    (pc : Word)
    (state : State) :
    (applyAll pc state body).mem = state.mem := by
  apply applyAll_mem_of_target
  intro inst member
  obtain ⟨target, targets, -⟩ :=
    isScratch_target (List.all_eq_true.mp isScratch inst member)
  rw [targets]
  rfl

theorem yields_straight
    {body : List Inst}
    {state : State}
    {flag : Bool}
    (isScratch : body.all isScratch = true)
    (canReturn : CanReturn state)
    (value : (applyAll 0 state body).get .t4 = bit flag) :
    (straight body).Yields state flag := by
  have straightBody : ∀ inst ∈ body, inst.isStraight = true :=
    fun inst member => (Bool.and_eq_true_iff.mp
      (List.all_eq_true.mp isScratch inst member)).1
  have runs := @Environment.run_straight environment [] body [ret] state
    straightBody
    (Environment.PermitsEverything.permitsAll (fun _ _ => rfl) _ _)
  simp only [List.nil_append, List.length_nil, Nat.zero_add] at runs
  change environment.run _ _ _ _ = .next _ (applyAll 0 state body) at runs
  have sameReturn : (applyAll 0 state body).get .ra = state.get .ra :=
    applyAll_get_of_isScratch isScratch 0 state (by decide)
  refine ⟨(applyAll 0 state body).set .zero
    (environment.address (body.length + 1)), ?_, ?_, ?_, ?_⟩
  · have fetch : (body ++ [ret])[body.length]? = some ret := by simp
    have leaves := step_ret fetch (canReturn.congr sameReturn)
    rw [run, straight, List.length_append, Environment.run_add, runs]
    simp only [List.length_singleton, Environment.run, leaves, sameReturn,
      if_true]
  · rw [State.set_zero_get, value]
  · exact applyAll_mem_of_isScratch isScratch 0 state
  · intro register kept
    rw [State.set_zero_get]
    exact applyAll_get_of_isScratch isScratch 0 state kept

end Stub
end Oxtra

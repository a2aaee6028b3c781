import Oxtra.Instruction.ExtendedOperands
import Oxtra.Instructions.Arithmetic
import Oxtra.Instructions.ConditionalJumps
import Oxtra.Instructions.DirectLoads
import Oxtra.Instructions.Generate

/-!
# Divisions

The dividend is put together in one register and is divided as a whole.  The
exception is raised for a divisor of zero and for the smallest dividend of a
signed division by minus one.
-/

namespace Oxtra

open RiscV
open Encoding
open Helper
open Instruction
open TwosComplement
open Fadec (Operand OperandSize)

namespace Idiv

/-! ## Dividends -/

section Dividends

variable (signed : Bool) (size : OperandSize) (state : State)

/-- The upper half of the dividend: `ah`, or the low bits of `rdx`. -/
def upperHalf : BitVec size.bits :=
  match size with
  | .byte => (state.get rax).extractLsb' 8 8
  | size => (state.get rdx).setWidth size.bits

/-- The lower half of the dividend. -/
def lowerHalf : BitVec size.bits := (state.get rax).setWidth size.bits

/-- The dividend of a division on x86. -/
def dividendValue : Int :=
  value signed (upperHalf size state ++ lowerHalf size state)

/-- What `rax` holds above the lower half of the dividend.  The upper half of a
dividend in one register is above it as well, and does not count. -/
def strayBits : Word :=
  match size with
  | .byte | .qword => 0
  | size => state.get rax >>> size.bits <<< size.bits

/-- The dividend with the stray bits. -/
def strayDividend : Word :=
  extend signed (upperHalf size state ++ lowerHalf size state) 64 +
    strayBits size state

/-- The dividend of 16 bytes is the extension of its lower half. -/
def Extends : Prop :=
  upperHalf size state ++ lowerHalf size state =
    extend signed (lowerHalf size state) (size.bits + size.bits)

/-- A word is its low part and what is above it. -/
theorem shifts_add_setWidth (word : Word) (width : Nat) :
    word >>> width <<< width + (word.setWidth width).setWidth 64 = word := by
  have apart : word >>> width <<< width &&&
      (word.setWidth width).setWidth 64 = 0#64 := by
    apply BitVec.eq_of_getLsbD_eq
    intro index inside
    simp only [BitVec.getLsbD_and, BitVec.getLsbD_shiftLeft,
      BitVec.getLsbD_setWidth, BitVec.getLsbD_zero]
    grind
  rw [BitVec.add_eq_or_of_and_eq_zero _ _ apart]
  apply BitVec.eq_of_getLsbD_eq
  intro index inside
  simp only [BitVec.getLsbD_or, BitVec.getLsbD_shiftLeft,
    BitVec.getLsbD_ushiftRight, BitVec.getLsbD_setWidth]
  grind

/-- Both halves are added, the lower one with all that is above it. -/
theorem strayDividend_joined
    (joined : size = .word ∨ size = .dword) :
    strayDividend signed size state =
      extend signed (upperHalf size state) 64 <<< size.bits +
        state.get rax := by
  have whole := shifts_add_setWidth (state.get rax) size.bits
  rw [strayDividend, extend_append _ _ _ size.bits_pos]
  rcases joined with rfl | rfl <;>
    rw [add_assoc, add_comm (BitVec.setWidth 64 _)] <;>
    exact congrArg _ whole

/-- The bytes of the lowest word. -/
theorem append_bytes (word : Word) :
    word.extractLsb' 8 8 ++ word.setWidth 8 = word.setWidth 16 := by
  apply BitVec.eq_of_getLsbD_eq
  intro index inside
  simp only [BitVec.getLsbD_append, BitVec.getLsbD_extractLsb',
    BitVec.getLsbD_setWidth]
  grind

theorem buildDividend_computesInto :
    ComputesInto [dividend, tmp] (buildDividend size signed) := by
  have loads := fun src access temp modifiable fullLoad signExtend =>
    @loadFromRegister_computesInto src temp access modifiable fullLoad
      signExtend
  have joins : ∀ access shamt,
      ComputesInto [dividend, tmp] (joinDividend access shamt signed) := by
    intro access shamt
    have upper := (loads rdx access dividend true true signed).mono
      (by simp : ∀ register ∈ [dividend], register ∈ [dividend, tmp])
    have lower := (loads rax access tmp true false false).mono
      (by simp : ∀ register ∈ [tmp], register ∈ [dividend, tmp])
    have shifts : ComputesInto [dividend, tmp]
        [slli dividend dividend shamt] :=
      ComputesInto.singleton rfl rfl (by simp)
    exact ComputesInto.append_iff.mpr ⟨ComputesInto.append_iff.mpr
      ⟨upper, ComputesInto.append_iff.mpr ⟨shifts, lower⟩⟩,
        ComputesInto.singleton rfl rfl (by simp)⟩
  cases size with
  | byte => exact (loads _ _ _ _ _ _).mono (by simp)
  | word => exact joins .word 16
  | dword => exact joins .dword 32
  | qword => exact ComputesInto.singleton rfl rfl (by simp)

/-- Both halves in one register. -/
theorem joinDividend_value
    {access : RegisterAccess}
    {shamt : BitVec 8}
    (bits : access.bits = (shamt.setWidth 6).toNat)
    (low : access ≠ .hbyte)
    (pc : Word) :
    (applyAll pc state (joinDividend access shamt signed)).get dividend =
      extend signed ((state.get rdx).setWidth access.bits) 64 <<<
        access.bits + state.get rax := by
  have loaded := @loadFromRegister_full rdx dividend (by decide) access true
    signed pc state
  have kept := (@loadFromRegister_computesInto rdx dividend access true true
    signed).get pc state (by decide : rax ∉ [dividend])
  have copies : (loadFromRegister rax access tmp true false false).1 =
      [mv tmp rax] := by
    simp [loadFromRegister, low]
  have register : (loadFromRegister rdx access dividend true true signed).2 =
      dividend := by
    cases access <;> rfl
  simp only [register, RegisterAccess.setWidth_part low] at loaded
  simp only [joinDividend, copies, applyAll_append, applyAll_cons,
    applyAll_nil, apply_slli, apply_mv,
    apply_add, State.set_get_self _ _ (by decide : dividend ≠ .zero),
    State.set_get_self _ _ (by decide : tmp ≠ .zero),
    State.set_get_of_ne _ _ (by decide : dividend ≠ tmp),
    State.set_get_of_ne _ _ (by decide : rax ≠ dividend), kept, loaded, bits]

/-- The dividend in its register. -/
theorem buildDividend_value (pc : Word) :
    (applyAll pc state (buildDividend size signed)).get dividend =
      strayDividend signed size state := by
  cases size with
  | byte =>
      have loaded := @loadFromRegister_full rax dividend (by decide) .word true
        signed pc state
      rw [RegisterAccess.setWidth_part (by decide)] at loaded
      rw [strayDividend]
      change _ = extend signed ((state.get rax).extractLsb' 8 8 ++
        (state.get rax).setWidth 8) 64 + 0#64
      rw [append_bytes, BitVec.add_zero]
      exact loaded
  | word =>
      rw [strayDividend_joined _ _ _ (Or.inl rfl)]
      exact joinDividend_value signed state rfl (by decide) pc
  | dword =>
      rw [strayDividend_joined _ _ _ (Or.inr rfl)]
      exact joinDividend_value signed state rfl (by decide) pc
  | qword =>
      rw [strayDividend, extend_append _ _ _ (by decide)]
      change (applyAll pc state [mv dividend rax]).get dividend =
        extend signed (upperHalf .qword state) 64 <<< 64 +
          ((state.get rax).setWidth 64).setWidth 64 + 0#64
      have shifted : extend signed (upperHalf .qword state) 64 <<< 64 = 0#64 :=
        BitVec.shiftLeft_eq_zero (le_refl 64)
      simp [shifted, State.set_get_self, dividend]

end Dividends

/-! ## Quotients and remainders -/

section Results

variable (signed : Bool) (size : OperandSize) (pc : Word) (state : State)

theorem applyAll_divide (nonzero : state.get divisor ≠ 0) :
    applyAll pc state (divide signed) =
      (state.set quotient (TwosComplement.quotient signed
        (state.get dividend) (state.get divisor))).set remainder
          (TwosComplement.remainder signed (state.get dividend)
            (state.get divisor)) := by
  have nonzero : ¬ state.get divisor = 0 := nonzero
  cases signed <;>
    simp only [divide, Bool.false_eq_true, if_true, if_false, applyAll_cons,
      applyAll_nil, apply_div, apply_divu, apply_rem, apply_remu,
      State.set_get_of_ne _ _ (by decide : dividend ≠ quotient),
      State.set_get_of_ne _ _ (by decide : divisor ≠ quotient), nonzero,
      TwosComplement.quotient, TwosComplement.remainder]

theorem storeResult_eq :
    storeResult size =
      moveToRegister rax quotient (RegisterAccess.ofSize size) tmp false ++
        moveToRegister (upperPlace size).1 remainder (upperPlace size).2 tmp
          false := by
  cases size <;> rfl

theorem storeResult_computesInto :
    ComputesInto [rax, rdx, tmp] (storeResult size) := by
  have moves := fun dest src access =>
    @moveToRegister_computesInto dest src tmp access false
  rw [storeResult_eq]
  refine ComputesInto.append_iff.mpr ⟨(moves _ _ _).mono (by simp),
    (moves _ _ _).mono ?_⟩
  cases size <;> simp [upperPlace]

/-- Quotient and remainder go to the halves of the dividend. -/
theorem storeResult_get {register : Register} (notTmp : register ≠ tmp) :
    (applyAll pc state (storeResult size)).get register =
      writeHalves size (state.get quotient) (state.get remainder) state.get
        register := by
  have first := fun {register : Register} => @moveToRegister_writes rax quotient
    tmp (by decide) (by decide) (by decide) (by decide)
    (RegisterAccess.ofSize size) (fun _ => by decide) pc state register
  have place : isGuest (upperPlace size).1 = true := by
    cases size <;> decide
  have others : (upperPlace size).1 ≠ tmp := ne_of_isGuest place (by decide)
  have kept : writePart rax (RegisterAccess.ofSize size) (state.get quotient)
      state.get remainder = state.get remainder := if_neg (by decide)
  have remainderKept := first (by decide : remainder ≠ tmp)
  rw [kept] at remainderKept
  rw [storeResult_eq, applyAll_append,
    moveToRegister_writes place (by decide) (by decide) (by decide)
      (fun _ => (ne_of_isGuest place (by decide)).symm) _ _ notTmp,
    remainderKept, writeHalves, writePart, writePart, first others,
    first notTmp]

end Results

/-! ## Exceptions -/

/-- The function for the exception ends the program. -/
def ExceptionEnds (runtime : JumpTable.Runtime) (symbols : HostSymbols) :
    Prop :=
  ∀ called, called.get .t4 = symbols.divisionException ->
    runtime .cWrapper called = none

/-- Some registers and the memory stay the same. -/
def Kept (written : List Register) (before after : State) : Prop :=
  (∀ register, register ∉ written ->
      after.get register = before.get register) ∧
    after.mem = before.mem

theorem Kept.trans
    {written : List Register}
    {before middle after : State}
    (first : Kept written before middle)
    (second : Kept written middle after) :
    Kept written before after :=
  ⟨fun register outside =>
      (second.1 register outside).trans (first.1 register outside),
    second.2.trans first.2⟩

theorem Kept.mono
    {written more : List Register}
    {before after : State}
    (kept : Kept written before after)
    (subset : written ⊆ more) :
    Kept more before after :=
  ⟨fun register outside =>
      kept.1 register fun member => outside (subset member),
    kept.2⟩

theorem kept_set (state : State) (register : Register) (value : Word) :
    Kept [register] state (state.set register value) :=
  ⟨fun _ outside => State.set_get_of_ne _ _ (by simpa using outside), rfl⟩

/-- The code calls the function for the exception. -/
def Raises
    (env : Environment)
    (symbols : HostSymbols)
    (code : List Inst)
    (state called : State) : Prop :=
  env.Exits code state
      (.left (JumpTable.Entry.cWrapper.address state) called) ∧
    called.get .t4 = symbols.divisionException

/-- The code raises the exception or it runs to its end. -/
def RaisesIf
    (env : Environment)
    (symbols : HostSymbols)
    (code : List Inst)
    (written : List Register)
    (state : State)
    (raises : Prop) : Prop :=
  (raises -> ∃ called, Raises env symbols code state called ∧
      Kept (.ra :: written) state called) ∧
    (¬ raises -> ∃ next, env.Exits code state (.ended next) ∧
      Kept written state next)

section Exceptions

variable {env : Environment} {symbols : HostSymbols}
variable {state : State} {written : List Register} {raises : Prop}

theorem RaisesIf.congr
    {code : List Inst}
    {other : Prop}
    (outcome : RaisesIf env symbols code written state raises)
    (same : raises ↔ other) :
    RaisesIf env symbols code written state other := by
  rw [← propext same]
  exact outcome

/-- Code in front of the exception. -/
theorem RaisesIf.behind
    {first code : List Inst}
    {next : State}
    (ends : env.Exits first state (.ended next))
    (kept : Kept written state next)
    (table : jumpTableAddress ∉ written)
    (further : RaisesIf (env.shift first.length) symbols code written next
      raises) :
    RaisesIf env symbols (first ++ code) written state raises := by
  have same : JumpTable.Entry.cWrapper.address next =
      JumpTable.Entry.cWrapper.address state := by
    rw [JumpTable.Entry.address, JumpTable.Entry.address, kept.1 _ table]
  constructor
  · intro raised
    obtain ⟨called, ⟨exits, function⟩, keptCalled⟩ := further.1 raised
    rw [same] at exits
    exact ⟨called, ⟨ends.append exits (by simp), function⟩,
      (kept.mono (List.subset_cons_self _ _)).trans keptCalled⟩
  · intro quiet
    obtain ⟨last, exits, keptLast⟩ := further.2 quiet
    exact ⟨last, ends.append exits (by simp), kept.trans keptLast⟩

/-- A branch that skips the exception. -/
theorem RaisesIf.skippable
    {kind : Branch}
    {rs1 rs2 : Register}
    {body : List Inst}
    (permits : env.PermitsEverything)
    (short : body.length < 1023)
    (inside : RaisesIf (env.shift 1) symbols body written state raises) :
    RaisesIf env symbols (branchOver (btype kind rs1 rs2) body) written state
      (kind.eval (state.get rs1) (state.get rs2) = false ∧ raises) := by
  constructor
  · rintro ⟨skipped, raised⟩
    obtain ⟨called, ⟨exits, function⟩, kept⟩ := inside.1 raised
    exact ⟨called, ⟨Environment.exits_branch_skipped permits (by simp [skipped])
      exits (by simp), function⟩, kept⟩
  · intro quiet
    by_cases taken : kind.eval (state.get rs1) (state.get rs2) = true
    · exact ⟨state, Environment.exits_branch_taken permits taken
        (branchOver_reach short), fun _ _ => rfl, rfl⟩
    · obtain ⟨next, exits, kept⟩ := inside.2 fun raised =>
        quiet ⟨by simpa using taken, raised⟩
      exact ⟨next, Environment.exits_branch_skipped permits taken exits
        (by simp), kept⟩

end Exceptions

section Checks

variable {runtime : JumpTable.Runtime} {symbols : HostSymbols}
variable {env : Environment} {state : State}
variable (permits : env.PermitsEverything)
variable (ends : ExceptionEnds runtime symbols)
variable (aligned : TableAligned state)

theorem length_raise_le : (raise symbols).length ≤ 9 := by
  have short := length_loadImmediate_le symbols.divisionException .t4
  rw [raise, callHighLevel, List.length_append]
  exact Nat.add_le_add_right short 1

include permits

theorem exits_loadImmediate
    (imm : Word)
    {dest : Register}
    (nonzero : dest ≠ .zero) :
    env.Exits (loadImmediate imm dest) state (.ended (state.set dest imm)) := by
  have loads := Environment.exits_straight
    (loadImmediate_computesInto imm dest).straight (permits.permitsAll state _)
  rw [applyAll_loadImmediate nonzero] at loads
  exact loads

/-- A comparison of a register with a constant. -/
theorem RaisesIf.compare
    {imm : Word}
    {reg : Register}
    {code : List Inst}
    {raises : Prop}
    (apart : reg ≠ tmp)
    (short : code.length < 1023)
    (inside : ∀ env : Environment, env.PermitsEverything ->
      RaisesIf (JumpTable.dispatch runtime env) symbols code [.t4]
        (state.set tmp imm) raises) :
    RaisesIf (JumpTable.dispatch runtime env) symbols
      (loadImmediate imm tmp ++ branchOver (bne tmp reg) code) [.t4] state
      (state.get reg = imm ∧ raises) := by
  let later := env.shift (loadImmediate imm tmp).length
  have permitsLater := permits.shift (loadImmediate imm tmp).length
  have branches := @RaisesIf.skippable (JumpTable.dispatch runtime later)
    symbols (state.set tmp imm) [.t4] raises .bne tmp reg code
    (JumpTable.dispatch_permits permitsLater runtime) short
    (inside (later.shift 1) (permitsLater.shift 1))
  have further := RaisesIf.behind
    (exits_loadImmediate (JumpTable.dispatch_permits permits runtime) imm
      (by decide : tmp ≠ .zero))
    (kept_set state tmp imm) (by decide) branches
  refine further.congr (and_congr_left fun _ => ?_)
  rw [State.set_get_self _ _ (by decide), State.set_get_of_ne _ _ apart,
    Branch.eval, bne_eq_false_iff_eq]
  exact eq_comm

include ends aligned

theorem raise_raises :
    RaisesIf (JumpTable.dispatch runtime env) symbols (raise symbols) [.t4]
      state True := by
  let exception := symbols.divisionException
  let further := env.shift (loadImmediate exception .t4).length
  let loaded := state.set .t4 exception
  let called := loaded.set .ra (further.address 1)
  have permitsAll := JumpTable.dispatch_permits permits runtime
  have loads := @exits_loadImmediate _ state permitsAll exception .t4
    (by decide)
  have function : called.get .t4 = exception := by
    rw [State.set_get_of_ne _ _ (by decide), State.set_get_self _ _ (by decide)]
  have kept := kept_set state .t4 exception
  have alignedLoaded : TableAligned loaded := by
    rw [TableAligned, kept.1 _ (by decide)]
    exact aligned
  have permitsFurther : further.PermitsEverything := permits.shift _
  have leaves := jumpTableEntry_leaves permitsFurther alignedLoaded
    (rfl : JumpTable.Entry.cWrapper.destination = _) (by decide)
    (ends called function)
  refine RaisesIf.behind loads kept (by decide)
    ⟨fun _ => ⟨called, ⟨leaves, function⟩, ?_⟩, fun quiet =>
      absurd trivial quiet⟩
  exact (kept_set loaded .ra _).mono (by simp)

/-- The exception for a divisor of zero. -/
theorem checkZero_raises :
    RaisesIf (JumpTable.dispatch runtime env) symbols
      (branchOver (bnqz divisor) (raise symbols)) [.t4] state
      (state.get divisor = 0) := by
  have short := @length_raise_le symbols
  have inside := raise_raises (permits.shift 1) ends aligned
  have branches := @RaisesIf.skippable (JumpTable.dispatch runtime env)
    symbols state [.t4] True .bne divisor .zero (raise symbols)
    (JumpTable.dispatch_permits permits runtime)
    (by omega) inside
  refine branches.congr ?_
  rw [State.get_zero]
  simp [Branch.eval]

/-- The exception for the smallest dividend. -/
theorem checkOverflow_raises (size : OperandSize) :
    RaisesIf (JumpTable.dispatch runtime env) symbols
      (checkOverflow symbols size) [.t4] state
      (state.get divisor = -1 ∧
        state.get dividend = smallestDividend size) := by
  have short := @length_raise_le symbols
  have shortLoad := length_loadImmediate_le (smallestDividend size) tmp
  let ones := state.set tmp (-1)
  let smallest := ones.set tmp (smallestDividend size)
  have keptOnes := kept_set state tmp (-1)
  have keptSmallest := kept_set ones tmp (smallestDividend size)
  have alignedSmallest : TableAligned smallest := by
    rw [TableAligned, keptSmallest.1 _ (by decide), keptOnes.1 _ (by decide)]
    exact aligned
  have inner := fun (env : Environment) (permits : env.PermitsEverything) =>
    RaisesIf.compare permits (by decide : dividend ≠ tmp) (by omega)
      fun _ permits => raise_raises permits ends alignedSmallest
  have inside : (loadImmediate (smallestDividend size) tmp ++
      branchOver (bne tmp dividend) (raise symbols)).length < 1023 := by
    rw [List.length_append, branchOver, List.length_cons]
    omega
  have outer := RaisesIf.compare permits (by decide : divisor ≠ tmp) inside
    inner
  refine outer.congr ?_
  rw [keptOnes.1 _ (by decide), and_true]

/-- Only a signed division may overflow. -/
theorem check_raises (signed : Bool) (size : OperandSize) :
    RaisesIf (JumpTable.dispatch runtime env) symbols
      (if signed then checkOverflow symbols size else []) [.t4] state
      (signed = true ∧ state.get divisor = -1 ∧
        state.get dividend = smallestDividend size) := by
  cases signed with
  | true =>
      exact (checkOverflow_raises permits ends aligned size).congr (by simp)
  | false =>
      exact ⟨fun raised => absurd raised.1 Bool.false_ne_true,
        fun _ => ⟨state, ⟨1, rfl⟩, fun _ _ => rfl, rfl⟩⟩

end Checks

/-! ## The whole division -/

/-- The code in front of the division itself. -/
def prepare (symbols : HostSymbols) (signed : Bool) (size : OperandSize) :
    List Inst :=
  branchOver (bnqz divisor) (raise symbols) ++ buildDividend size signed ++
    if signed then checkOverflow symbols size else []

/-- The divisor and the dividend that the exception is raised for. -/
def Faults (signed : Bool) (size : OperandSize) (divisorWord word : Word) :
    Prop :=
  divisorWord = 0 ∨
    signed = true ∧ divisorWord = -1 ∧ word = smallestDividend size

theorem Raises.append_left
    {env : Environment}
    {symbols : HostSymbols}
    {code : List Inst}
    {state called : State}
    (raises : Raises env symbols code state called)
    (more : List Inst) :
    Raises env symbols (code ++ more) state called :=
  ⟨raises.1.append_left more (by simp) (by simp), raises.2⟩

/-- The dividend is in the registers of the guest. -/
theorem strayDividend_congr
    {first second : State}
    (same : ∀ reg, first.get (mapReg reg) = second.get (mapReg reg))
    (signed : Bool)
    (size : OperandSize) :
    strayDividend signed size first = strayDividend signed size second := by
  have lower : first.get rax = second.get rax := same 0
  have upper : first.get rdx = second.get rdx := same 2
  have upperHalves : upperHalf size first = upperHalf size second := by
    cases size with
    | byte => exact congrArg (BitVec.extractLsb' 8 8) lower
    | _ => exact congrArg (BitVec.setWidth _) upper
  have lowerHalves : lowerHalf size first = lowerHalf size second :=
    congrArg (BitVec.setWidth _) lower
  have stray : strayBits size first = strayBits size second := by
    cases size with
    | byte | qword => rfl
    | _ => exact congrArg (fun word : Word => word >>> _ <<< _) lower
  rw [strayDividend, strayDividend, upperHalves, lowerHalves, stray]

theorem Kept.guest
    {written : List Register}
    {before after : State}
    (kept : Kept written before after)
    (free : ∀ register ∈ written, isGuest register = false)
    (reg : Fadec.Register) :
    after.get (mapReg reg) = before.get (mapReg reg) := by
  apply kept.1
  intro member
  have guest := free _ member
  rw [isGuest_mapReg] at guest
  cases guest

section Whole

variable {runtime : JumpTable.Runtime} {symbols : HostSymbols}
variable {env : Environment} {state : State}
variable (permits : env.PermitsEverything)
variable (ends : ExceptionEnds runtime symbols)
variable (aligned : TableAligned state)
variable (signed : Bool) (size : OperandSize)

include permits ends aligned

/-- The dividend is built for a divisor other than zero. -/
theorem dividend_built (nonzero : state.get divisor ≠ 0) :
    ∃ built, (JumpTable.dispatch runtime env).Exits
        (branchOver (bnqz divisor) (raise symbols) ++
          buildDividend size signed) state (.ended built) ∧
      Kept [.t4, dividend] state built ∧
      built.get dividend = strayDividend signed size state := by
  obtain ⟨next, exits, kept⟩ :=
    (checkZero_raises permits ends aligned).2 nonzero
  let further := env.shift
    (branchOver (bnqz divisor) (raise symbols)).length
  have permitsFurther : (JumpTable.dispatch runtime further).PermitsEverything :=
    JumpTable.dispatch_permits (permits.shift _) runtime
  have computes := (buildDividend_computesInto signed size).mono
    (by simp [tmp] : ∀ register ∈ [dividend, tmp], register ∈ [.t4, dividend])
  have builds := Environment.exits_straight computes.straight
    (permitsFurther.permitsAll next _)
  refine ⟨_, exits.append builds (by simp), ?_, ?_⟩
  · exact (kept.mono (by simp)).trans
      ⟨fun _ outside => computes.get _ _ outside, computes.mem _ _⟩
  · rw [buildDividend_value]
    exact strayDividend_congr (kept.guest (by decide)) signed size

/-- The exception is raised or the dividend is built. -/
theorem prepare_outcome :
    let word := strayDividend signed size state
    (Faults signed size (state.get divisor) word ->
      ∃ called, Raises (JumpTable.dispatch runtime env) symbols
          (prepare symbols signed size) state called ∧
        Kept [.ra, .t4, dividend] state called) ∧
      (¬ Faults signed size (state.get divisor) word ->
        ∃ built, (JumpTable.dispatch runtime env).Exits
            (prepare symbols signed size) state (.ended built) ∧
          Kept [.t4, dividend] state built ∧ built.get dividend = word) := by
  intro word
  by_cases zero : state.get divisor = 0
  · obtain ⟨called, raises, kept⟩ :=
      (checkZero_raises permits ends aligned).1 zero
    refine ⟨fun _ => ⟨called, ?_, kept.mono (by simp)⟩,
      fun quiet => absurd (Or.inl zero) quiet⟩
    exact (raises.append_left _).append_left _
  · obtain ⟨built, exits, kept, value⟩ :=
      dividend_built permits ends aligned signed size zero
    have sameDivisor : built.get divisor = state.get divisor :=
      kept.1 _ (by decide)
    have alignedBuilt : TableAligned built := by
      rw [TableAligned, kept.1 _ (by decide)]
      exact aligned
    let further := env.shift (branchOver (bnqz divisor) (raise symbols) ++
      buildDividend size signed).length
    have permitsFurther : further.PermitsEverything := permits.shift _
    have checks := check_raises permitsFurther ends alignedBuilt signed size
    rw [sameDivisor, value] at checks
    constructor
    · intro faults
      obtain ⟨called, ⟨leaves, function⟩, keptCalled⟩ :=
        checks.1 (faults.resolve_left zero)
      have sameTable : JumpTable.Entry.cWrapper.address built =
          JumpTable.Entry.cWrapper.address state := by
        rw [JumpTable.Entry.address, JumpTable.Entry.address,
          kept.1 _ (by decide)]
      rw [sameTable] at leaves
      exact ⟨called, ⟨exits.append leaves (by simp), function⟩,
        (kept.mono (by simp)).trans (keptCalled.mono (by simp))⟩
    · intro quiet
      obtain ⟨next, passes, keptNext⟩ := checks.2 fun overflow =>
        quiet (Or.inr overflow)
      refine ⟨next, exits.append passes (by simp),
        kept.trans (keptNext.mono (by simp)), ?_⟩
      rw [keptNext.1 _ (by decide), value]

omit permits ends aligned in
theorem divide_straight :
    ∀ inst ∈ divide signed ++ storeResult size,
      inst.isStraight = true ∧ inst.base = none := by
  intro inst member
  rcases List.mem_append.mp member with divides | stores
  · cases signed <;>
      simp only [divide, Bool.false_eq_true, if_true, if_false, List.mem_cons,
        List.not_mem_nil, or_false] at divides <;>
      rcases divides with rfl | rfl <;> exact ⟨rfl, rfl⟩
  · have computes := storeResult_computesInto size
    exact ⟨computes.straight _ stores, computes.base_none _ stores⟩

omit permits ends aligned in
/-- The results in their registers. -/
theorem divide_stores
    {built : State}
    (nonzero : built.get divisor ≠ 0)
    (pc : Word) :
    let next := applyAll pc built (divide signed ++ storeResult size)
    next.mem = built.mem ∧ ∀ reg, next.get (mapReg reg) =
      writeHalves size
        (TwosComplement.quotient signed (built.get dividend)
          (built.get divisor))
        (TwosComplement.remainder signed (built.get dividend)
          (built.get divisor))
        built.get (mapReg reg) := by
  let quotientWord := TwosComplement.quotient signed (built.get dividend)
    (built.get divisor)
  let remainderWord := TwosComplement.remainder signed (built.get dividend)
    (built.get divisor)
  let divided := (built.set quotient quotientWord).set remainder remainderWord
  have applied := applyAll_divide signed pc built nonzero
  have first : divided.get quotient = quotientWord := by
    rw [State.set_get_of_ne _ _ (by decide), State.set_get_self _ _ (by decide)]
  have second : divided.get remainder = remainderWord :=
    State.set_get_self _ _ (by decide)
  have kept : ∀ reg, divided.get (mapReg reg) = built.get (mapReg reg) := by
    intro reg
    rw [State.set_get_of_ne _ _ (ne_of_isGuest (isGuest_mapReg reg) (by decide)),
      State.set_get_of_ne _ _ (ne_of_isGuest (isGuest_mapReg reg) (by decide))]
  intro next
  simp only [next, applyAll_append, applied]
  refine ⟨(storeResult_computesInto size).mem _ _, fun reg => ?_⟩
  rw [storeResult_get _ _ _ (ne_of_isGuest (isGuest_mapReg reg) (by decide)),
    first, second]
  exact writeHalves_registers kept size _ _ reg

end Whole

/-! ### Accesses -/

/-- No memory is accessed but by the load of the divisor. -/
def Silent (code : List Inst) : Prop := ∀ inst ∈ code, inst.base = none

theorem Silent.append
    {first second : List Inst}
    (silentFirst : Silent first)
    (silentSecond : Silent second) : Silent (first ++ second) := by
  intro inst member
  exact (List.mem_append.mp member).elim (silentFirst inst) (silentSecond inst)

theorem Silent.branchOver
    {code : List Inst}
    (silent : Silent code)
    (kind : Branch)
    (rs1 rs2 : Register) : Silent (branchOver (btype kind rs1 rs2) code) := by
  intro inst member
  rcases List.mem_cons.mp member with rfl | inside
  · rfl
  · exact silent inst inside

theorem prepare_silent
    (symbols : HostSymbols)
    (signed : Bool)
    (size : OperandSize) : Silent (prepare symbols signed size) := by
  have loads : ∀ imm dest, Silent (loadImmediate imm dest) :=
    fun imm dest => (loadImmediate_computesInto imm dest).base_none
  have raises : Silent (raise symbols) :=
    (loads _ _).append fun inst member => by
      rw [List.mem_singleton.mp member]
      rfl
  have checks : Silent (checkOverflow symbols size) :=
    (loads _ _).append
      (((loads _ _).append (raises.branchOver .bne _ _)).branchOver .bne _ _)
  refine ((raises.branchOver .bne _ _).append
    (buildDividend_computesInto signed size).base_none).append ?_
  cases signed with
  | true => exact checks
  | false => exact fun inst member => absurd member List.not_mem_nil

/-! ## Instructions -/

section Instructions

variable (inst : Instruction)

/-- The division is one of signed integers. -/
def isSigned : Bool := inst.type == .idiv

/-- The divisor on x86. -/
def divisorBits (state : State) : BitVec inst.destinationSize.bits :=
  inst.operandBits (inst.getOperand 0) inst.destinationSize state

def divisorValue (state : State) : Int :=
  value (isSigned inst) (divisorBits inst state)

/-- The instruction divides by a register or by memory. -/
structure Division : Prop where
  division : inst.instructionClass = .idiv
  rm : (inst.getOperand 0).isRm = true
  valid : (inst.getOperand 0).valid = true

/-- The code that loads the divisor. -/
def loadDivisor : List Inst :=
  (inst.translateExtended (inst.getOperand 0) divisor tmp true
    (isSigned inst)).code

theorem generate_eq (symbols : HostSymbols) :
    generate symbols inst =
      loadDivisor inst ++
        (prepare symbols (isSigned inst) inst.destinationSize ++
          (divide (isSigned inst) ++ storeResult inst.destinationSize)) := by
  rw [prepare, ← List.append_assoc, ← List.append_assoc, ← List.append_assoc,
    ← List.append_assoc]
  rfl

theorem loadDivisor_straight :
    ∀ written ∈ loadDivisor inst, written.isStraight = true :=
  translateExtended_straight true (isSigned inst)

theorem loadDivisor_kept (pc : Word) (state : State) :
    Kept [divisor, tmp] state (applyAll pc state (loadDivisor inst)) := by
  have free : divisor ≠ tmp := by decide
  constructor
  · intro register outside
    simp only [List.mem_cons, List.not_mem_nil, or_false, not_or] at outside
    exact translateExtended_get (by decide) (by decide) (by decide)
      (by decide) free true (isSigned inst) pc state outside.1 outside.2
  · exact translateExtended_mem (by decide) (by decide) (by decide)
      (by decide) free true (isSigned inst) pc state

end Instructions

section Outcome

variable {runtime : JumpTable.Runtime} {symbols : HostSymbols}
variable {env : Environment} {state : State} {inst : Instruction}
variable (permits : env.PermitsEverything)
variable (ends : ExceptionEnds runtime symbols)
variable (aligned : TableAligned state)

/-- How the code of a division ends, from the divisor that it has loaded. -/
structure Outcome
    (symbols : HostSymbols)
    (inst : Instruction)
    (state loaded : State)
    (exit : Exit) : Prop where
  raises : Faults (isSigned inst) inst.destinationSize (loaded.get divisor)
      (strayDividend (isSigned inst) inst.destinationSize state) ->
    ∃ called, exit = .left (JumpTable.Entry.cWrapper.address state) called ∧
      called.get .t4 = symbols.divisionException ∧
      ∀ reg, called.get (mapReg reg) = state.get (mapReg reg)
  divides : ¬ Faults (isSigned inst) inst.destinationSize (loaded.get divisor)
      (strayDividend (isSigned inst) inst.destinationSize state) ->
    ∃ next, exit = .ended next ∧ next.mem = state.mem ∧
      ∀ reg, next.get (mapReg reg) = writeHalves inst.destinationSize
        (TwosComplement.quotient (isSigned inst)
          (strayDividend (isSigned inst) inst.destinationSize state)
          (loaded.get divisor))
        (TwosComplement.remainder (isSigned inst)
          (strayDividend (isSigned inst) inst.destinationSize state)
          (loaded.get divisor))
        state.get (mapReg reg)

include permits ends aligned

theorem generate_ends :
    ∃ visited exit, (JumpTable.dispatch runtime env).Traces
        (generate symbols inst) state visited exit ∧
      accessesApart contextAddress visited =
        accessesApart contextAddress
          (Environment.straightTrace env.origin state (loadDivisor inst)) ∧
      Outcome symbols inst state
        (applyAll env.origin state (loadDivisor inst)) exit := by
  let loaded := applyAll env.origin state (loadDivisor inst)
  have permitsAll := JumpTable.dispatch_permits permits runtime
  have loads := Environment.traces_straight (loadDivisor_straight inst)
    (permitsAll.permitsAll state _)
  have kept := loadDivisor_kept inst env.origin state
  have alignedLoaded : TableAligned loaded := by
    rw [TableAligned, kept.1 _ (by decide)]
    exact aligned
  let signed := isSigned inst
  let size := inst.destinationSize
  let further := env.shift (loadDivisor inst).length
  have permitsFurther : further.PermitsEverything := permits.shift _
  have guest : ∀ reg, loaded.get (mapReg reg) = state.get (mapReg reg) :=
    kept.guest (by decide)
  have word : strayDividend signed size loaded =
      strayDividend signed size state := strayDividend_congr guest _ _
  have sameTable : JumpTable.Entry.cWrapper.address loaded =
      JumpTable.Entry.cWrapper.address state := by
    rw [JumpTable.Entry.address, JumpTable.Entry.address,
      kept.1 _ (by decide)]
  have prepares := prepare_outcome permitsFurther ends alignedLoaded signed size
  simp only [word] at prepares
  -- The rest of the code accesses no memory, however it ends.
  have silent : Silent (prepare symbols signed size ++
      (divide signed ++ storeResult size)) :=
    (prepare_silent symbols signed size).append fun inst member =>
      (divide_straight signed size inst member).2
  have enough : ∀ exit, exit ≠ .stuck -> Outcome symbols inst state loaded exit ->
      (JumpTable.dispatch runtime further).Exits (prepare symbols signed size ++
        (divide signed ++ storeResult size)) loaded exit ->
      ∃ visited exit, (JumpTable.dispatch runtime env).Traces
          (generate symbols inst) state visited exit ∧
        accessesApart contextAddress visited =
          accessesApart contextAddress
            (Environment.straightTrace env.origin state (loadDivisor inst)) ∧
        Outcome symbols inst state loaded exit := by
    intro exit notStuck outcome exits
    obtain ⟨visited, traces⟩ := exits.traces
    have whole := loads.append traces notStuck
    rw [← generate_eq] at whole
    refine ⟨_, exit, whole, ?_, outcome⟩
    have hidden : accessesApart contextAddress visited = [] :=
      accessesApart_eq_nil fun visit member =>
        Or.inl (silent _ (traces.mem_code member))
    rw [accessesApart_append, hidden, List.append_nil]
    rfl
  by_cases faults : Faults signed size (loaded.get divisor)
      (strayDividend signed size state)
  · obtain ⟨called, raises, keptCalled⟩ := prepares.1 faults
    have leaves := (raises.append_left (divide signed ++ storeResult size)).1
    rw [sameTable] at leaves
    refine enough _ (by simp) ⟨fun _ => ⟨called, rfl, raises.2, ?_⟩,
      fun quiet => absurd faults quiet⟩ leaves
    exact fun reg => (keptCalled.guest (by decide) reg).trans (guest reg)
  · obtain ⟨built, exits, keptBuilt, value⟩ := prepares.2 faults
    have sameDivisor : built.get divisor = loaded.get divisor :=
      keptBuilt.1 _ (by decide)
    have nonzero : built.get divisor ≠ 0 := by
      rw [sameDivisor]
      exact fun zero => faults (Or.inl zero)
    let last := further.shift (prepare symbols signed size).length
    have permitsLast : (JumpTable.dispatch runtime last).PermitsEverything :=
      JumpTable.dispatch_permits (permitsFurther.shift _) runtime
    have stores := divide_stores signed size nonzero last.origin
    rw [sameDivisor, value] at stores
    have straight := Environment.exits_straight
      (fun inst member => (divide_straight signed size inst member).1)
      (permitsLast.permitsAll built _)
    refine enough _ (by simp) ⟨fun raised => absurd raised faults,
      fun _ => ⟨_, rfl, ?_, ?_⟩⟩ (exits.append straight (by simp))
    · exact stores.1.trans (keptBuilt.2.trans kept.2)
    · intro reg
      refine (stores.2 reg).trans (writeHalves_registers (fun reg => ?_) size _
        _ reg)
      exact (keptBuilt.guest (by decide) reg).trans (guest reg)

end Outcome

section Values

variable {inst : Instruction} {state : State}

theorem loadDivisor_register (division : Division inst) :
    (inst.translateExtended (inst.getOperand 0) divisor tmp true
      (isSigned inst)).value = divisor := by
  have rm := division.rm
  cases found : inst.getOperand 0 with
  | reg size register type =>
      cases size <;> cases type <;> rfl
  | mem size base => rfl
  | imm size => simp [found, Operand.isRm, Operand.isReg, Operand.isMem] at rm
  | none => simp [found, Operand.isRm, Operand.isReg, Operand.isMem] at rm

theorem loadDivisor_value
    (division : Division inst)
    (fits : (inst.getOperand 0).isMem = true ->
      inst.AddressFits (inst.getOperand 0) state)
    (pc : Word) :
    (applyAll pc state (loadDivisor inst)).get divisor =
      extend (isSigned inst) (divisorBits inst state) 64 := by
  have located : (inst.getOperand 0).isReg = true ∨
      (inst.getOperand 0).isMem = true := by
    simpa [Operand.isRm] using division.rm
  have free : divisor ≠ tmp := by decide
  have value := translateExtended_value (by decide) (by decide) (by decide)
    (by decide) free true (isSigned inst) pc state division.valid located fits
  simp only [loadDivisor_register division] at value
  exact value

theorem loadDivisor_accesses_iff (pc : Word) :
    accessesApart contextAddress
        (Environment.straightTrace pc state (loadDivisor inst)) =
        inst.loadAccesses (inst.getOperand 0) state ↔
      ((inst.getOperand 0).isMem = true ->
        inst.AddressFits (inst.getOperand 0) state) := by
  have free : divisor ≠ tmp := by decide
  exact translateExtended_accesses_iff (by decide) (by decide) (by decide)
    (by decide) free true (isSigned inst) pc state

theorem faults_iff
    {signed : Bool}
    {size : OperandSize}
    (bits : BitVec size.bits)
    (word : Word) :
    Faults signed size (extend signed bits 64) word ↔
      bits = 0 ∨ signed = true ∧ value signed bits = -1 ∧
        word = smallestDividend size := by
  have wide := value_extend signed bits size.bits_le
  have zero : extend signed bits 64 = 0 ↔ bits = 0 := by
    change extend signed bits 64 = 0#64 ↔ bits = BitVec.ofNat size.bits 0
    rw [← value_eq_zero_iff signed, wide, value_eq_zero_iff]
  have ones : signed = true ->
      (extend signed bits 64 = -1 ↔ value signed bits = -1) := by
    rintro rfl
    rw [← value_inj true, wide]
    rfl
  rw [Faults, zero]
  refine or_congr_right (and_congr_right fun isSigned => ?_)
  rw [ones isSigned]

end Values

/-! ## Results -/

/-- The results of a division on x86 are in the registers of the guest. -/
def Divides
    (env : Environment)
    (code : List Inst)
    (inst : Instruction)
    (state : State) : Prop :=
  let size := inst.destinationSize
  let dividend := dividendValue (isSigned inst) size state
  let divisor := divisorValue inst state
  ∃ visited final, env.Traces code state visited (.ended final) ∧
    accessesApart contextAddress visited =
      inst.loadAccesses (inst.getOperand 0) state ∧
    final.mem = state.mem ∧
    ∀ reg, final.get (mapReg reg) =
      writeHalves size
        ((BitVec.ofInt size.bits (dividend.tdiv divisor)).setWidth 64)
        ((BitVec.ofInt size.bits (dividend.tmod divisor)).setWidth 64)
        state.get (mapReg reg)

/-- The divisor is not zero and the quotient fits.  A dividend of 16 bytes is
an extension of its lower half. -/
structure Divisible (inst : Instruction) (state : State) : Prop where
  nonzero : divisorBits inst state ≠ 0
  fits : Fits (isSigned inst) inst.destinationSize.bits
    ((dividendValue (isSigned inst) inst.destinationSize state).tdiv
      (divisorValue inst state))
  extended : inst.destinationSize = .qword ->
    Extends (isSigned inst) inst.destinationSize state

/-- What the stray bits add to the dividend does not matter: it is a multiple of
the divisor and of the modulus of the results, the division is rounded in the
same direction, and there is no exception. -/
structure StrayBitsVanish (inst : Instruction) (state : State) : Prop where
  multiple :
    divisorValue inst state * 2 ^ inst.destinationSize.bits ∣
      value (isSigned inst)
          (strayDividend (isSigned inst) inst.destinationSize state) -
        dividendValue (isSigned inst) inst.destinationSize state
  rounded :
    divisorValue inst state ∣
        dividendValue (isSigned inst) inst.destinationSize state ∨
      (0 ≤ value (isSigned inst)
          (strayDividend (isSigned inst) inst.destinationSize state) ↔
        0 ≤ dividendValue (isSigned inst) inst.destinationSize state)
  defined : ¬ (isSigned inst = true ∧ divisorValue inst state = -1 ∧
    strayDividend (isSigned inst) inst.destinationSize state =
      smallestDividend inst.destinationSize)

/-- The low bits of quotient and remainder are right if and only if the stray
bits do not change them. -/
theorem results_eq_iff
    {inst : Instruction}
    {state : State}
    (nonzero : divisorBits inst state ≠ 0) :
    let signed := isSigned inst
    let size := inst.destinationSize
    let word := strayDividend signed size state
    let divisor := extend signed (divisorBits inst state) 64
    let right := dividendValue signed size state
    (∀ reg, writeHalves size (TwosComplement.quotient signed word divisor)
          (TwosComplement.remainder signed word divisor) state.get
          (mapReg reg) =
        writeHalves size
          ((BitVec.ofInt size.bits
            (right.tdiv (divisorValue inst state))).setWidth 64)
          ((BitVec.ofInt size.bits
            (right.tmod (divisorValue inst state))).setWidth 64)
          state.get (mapReg reg)) ↔
      divisorValue inst state * 2 ^ size.bits ∣ value signed word - right ∧
        (divisorValue inst state ∣ right ∨
          (0 ≤ value signed word ↔ 0 ≤ right)) := by
  intro signed size word divisor right
  have results := @division_iff _ signed (divisorBits inst state) _ _
    size.bits_le nonzero (upperHalf size state ++ lowerHalf size state) word
  have narrow : ∀ bits : BitVec size.bits,
      (bits.setWidth 64).setWidth size.bits = bits := fun bits =>
    (BitVec.setWidth_setWidth_of_le _ size.bits_le).trans
      (BitVec.setWidth_eq _)
  rw [writeHalves_eq_iff, narrow, narrow]
  exact results

section Iff

variable {runtime : JumpTable.Runtime} {symbols : HostSymbols}
variable {env : Environment} {state : State} {inst : Instruction}
variable (permits : env.PermitsEverything)
variable (ends : ExceptionEnds runtime symbols)
variable (division : Division inst)
variable (aligned : TableAligned state)

theorem Division.generated
    (division : Division inst)
    (symbols : HostSymbols)
    (entries : Nat) :
    inst.generate symbols entries = some (Idiv.generate symbols inst) := by
  simp [Instruction.generate, division.division]

include permits ends division aligned

theorem divides_iff (nonzero : divisorBits inst state ≠ 0) :
    Divides (JumpTable.dispatch runtime env) (generate symbols inst) inst
        state ↔
      ((inst.getOperand 0).isMem = true ->
        inst.AddressFits (inst.getOperand 0) state) ∧
      StrayBitsVanish inst state := by
  obtain ⟨visited, exit, traces, accesses, outcome⟩ :=
    @generate_ends runtime symbols env state inst permits ends aligned
  have results := results_eq_iff nonzero
  have faults := @faults_iff (isSigned inst) _ (divisorBits inst state)
    (strayDividend (isSigned inst) inst.destinationSize state)
  constructor
  · rintro ⟨other, final, otherTraces, otherAccesses, -, registers⟩
    obtain ⟨rfl, rfl⟩ := traces.unique otherTraces
    have fits := (loadDivisor_accesses_iff env.origin).mp
      (accesses.symm.trans otherAccesses)
    obtain ⟨raises, divides⟩ := outcome
    rw [loadDivisor_value division fits env.origin] at raises divides
    by_cases faulty : Faults (isSigned inst) inst.destinationSize
        (extend (isSigned inst) (divisorBits inst state) 64)
        (strayDividend (isSigned inst) inst.destinationSize state)
    · obtain ⟨called, left, -⟩ := raises faulty
      cases left
    · obtain ⟨next, ended, -, values⟩ := divides faulty
      cases ended
      have same := results.mp fun reg => (values reg).symm.trans (registers reg)
      refine ⟨fits, same.1, same.2, fun overflow => faulty ?_⟩
      exact faults.mpr (Or.inr overflow)
  · rintro ⟨fits, vanish⟩
    obtain ⟨-, divides⟩ := outcome
    rw [loadDivisor_value division fits env.origin] at divides
    have quiet : ¬ Faults (isSigned inst) inst.destinationSize
        (extend (isSigned inst) (divisorBits inst state) 64)
        (strayDividend (isSigned inst) inst.destinationSize state) := by
      rw [faults]
      rintro (zero | overflow)
      · exact nonzero zero
      · exact vanish.defined overflow
    obtain ⟨next, rfl, memory, values⟩ := divides quiet
    refine ⟨visited, next, traces,
      accesses.trans ((loadDivisor_accesses_iff env.origin).mpr fits), memory,
      fun reg => (values reg).trans ?_⟩
    exact results.mpr ⟨vanish.multiple, vanish.rounded⟩ reg

/-- A division has the right results if and only if the address of its divisor
fits and the stray bits of the dividend do not matter. -/
theorem generate_divides_iff
    (divisible : Divisible inst state)
    (entries : Nat) :
    (∃ code, inst.generate symbols entries = some code ∧
      Divides (JumpTable.dispatch runtime env) code inst state) ↔
      ((inst.getOperand 0).isMem = true ->
        inst.AddressFits (inst.getOperand 0) state) ∧
      StrayBitsVanish inst state := by
  simp only [division.generated symbols entries, Option.some.injEq,
    exists_eq_left']
  exact divides_iff permits ends division aligned divisible.nonzero

end Iff

/-! ## Exceptions on x86 -/

section Clean

variable {signed : Bool} {size : OperandSize} {state : State}

/-- A short dividend without stray bits is the one of x86. -/
theorem value_strayDividend
    (short : size ≠ .qword)
    (clean : strayBits size state = 0) :
    value signed (strayDividend signed size state) =
      dividendValue signed size state := by
  have narrow : size.bits + size.bits ≤ 64 := by
    cases size with
    | qword => exact absurd rfl short
    | _ => decide
  rw [strayDividend, clean]
  change value signed (extend signed _ 64 + 0#64) = _
  rw [BitVec.add_zero, value_extend _ _ narrow]
  rfl

/-- The smallest dividend as an integer. -/
theorem value_smallestDividend (short : size ≠ .qword) :
    value true (smallestDividend size) =
      -2 ^ (size.bits + size.bits - 1) := by
  cases size with
  | qword => exact absurd rfl short
  | _ => decide

/-- The one overflow that is looked for. -/
theorem smallest_not_fits (size : OperandSize) :
    ¬ Fits true size.bits
      (Int.tdiv (-2 ^ (size.bits + size.bits - 1)) (-1)) := by
  cases size <;> decide

end Clean

/-- The exception is raised exactly for a divisor of zero and a quotient that
does not fit, and no register of the guest has changed. -/
def RaisesExactly
    (env : Environment)
    (symbols : HostSymbols)
    (code : List Inst)
    (inst : Instruction)
    (state : State) : Prop :=
  ∃ visited exit, env.Traces code state visited exit ∧
    accessesApart contextAddress visited =
      inst.loadAccesses (inst.getOperand 0) state ∧
    ((∃ called, exit = .left (JumpTable.Entry.cWrapper.address state) called ∧
        called.get .t4 = symbols.divisionException) ↔
      divisorBits inst state = 0 ∨
        ¬ Fits (isSigned inst) inst.destinationSize.bits
          ((dividendValue (isSigned inst) inst.destinationSize state).tdiv
            (divisorValue inst state))) ∧
    ∀ target called, exit = .left target called ->
      ∀ reg, called.get (mapReg reg) = state.get (mapReg reg)

/-- The divisor is zero, or the dividend is small, or it is the smallest one
of a signed division by minus one. -/
def ChecksSuffice (inst : Instruction) (state : State) : Prop :=
  let size := inst.destinationSize
  let dividend := dividendValue (isSigned inst) size state
  let divisor := divisorValue inst state
  divisor = 0 ∨ QuotientInRange (isSigned inst) size.bits dividend divisor ∨
    isSigned inst = true ∧ divisor = -1 ∧
      dividend = -2 ^ (size.bits + size.bits - 1)

/-- The checks of the code are those of x86 if and only if they suffice. -/
theorem checksSuffice_iff
    {inst : Instruction}
    {state : State}
    (short : inst.destinationSize ≠ .qword)
    (clean : strayBits inst.destinationSize state = 0) :
    (Faults (isSigned inst) inst.destinationSize
        (extend (isSigned inst) (divisorBits inst state) 64)
        (strayDividend (isSigned inst) inst.destinationSize state) ↔
      divisorBits inst state = 0 ∨
        ¬ Fits (isSigned inst) inst.destinationSize.bits
          ((dividendValue (isSigned inst) inst.destinationSize state).tdiv
            (divisorValue inst state))) ↔
      ChecksSuffice inst state := by
  let size := inst.destinationSize
  have word := @value_strayDividend (isSigned inst) _ _ short clean
  have zero : divisorValue inst state = 0 ↔ divisorBits inst state = 0 :=
    value_eq_zero_iff _ _
  have smallest : isSigned inst = true ->
      (strayDividend (isSigned inst) size state = smallestDividend size ↔
        dividendValue (isSigned inst) size state =
          -2 ^ (size.bits + size.bits - 1)) := by
    intro signed
    rw [← value_inj true, value_smallestDividend short, ← word, signed]
  have overflow : (isSigned inst = true ∧ divisorValue inst state = -1 ∧
      strayDividend (isSigned inst) size state = smallestDividend size) ↔
      isSigned inst = true ∧ divisorValue inst state = -1 ∧
        dividendValue (isSigned inst) size state =
          -2 ^ (size.bits + size.bits - 1) :=
    and_congr_right fun signed => and_congr_right fun _ => smallest signed
  rw [faults_iff]
  change (_ ∨ (_ ∧ divisorValue inst state = -1 ∧ _) ↔ _) ↔ _
  rw [overflow, ChecksSuffice, zero]
  by_cases none : divisorBits inst state = 0
  · simp [none]
  · have fits := @fits_iff (isSigned inst) size.bits
      (dividendValue (isSigned inst) size state) (divisorValue inst state)
      (zero.not.mpr none) fun unsigned =>
        ⟨value_nonneg unsigned _, value_nonneg unsigned _⟩
    have outside : isSigned inst = true -> divisorValue inst state = -1 ->
        dividendValue (isSigned inst) size state =
          -2 ^ (size.bits + size.bits - 1) ->
        ¬ Fits (isSigned inst) size.bits
          ((dividendValue (isSigned inst) size state).tdiv
            (divisorValue inst state)) := by
      intro signed ones same
      rw [signed] at same
      rw [ones, signed, same]
      exact smallest_not_fits size
    rw [fits] at outside ⊢
    simp only [none, false_or]
    constructor
    · intro same
      by_cases inRange : QuotientInRange (isSigned inst) size.bits
          (dividendValue (isSigned inst) size state) (divisorValue inst state)
      · exact Or.inl inRange
      · exact Or.inr (same.mpr inRange)
    · rintro (inRange | ⟨signed, ones, same⟩)
      · exact iff_of_false
          (fun found => outside found.1 found.2.1 found.2.2 inRange)
          (not_not_intro inRange)
      · exact iff_of_true ⟨signed, ones, same⟩ (outside signed ones same)

section Iff

variable {runtime : JumpTable.Runtime} {symbols : HostSymbols}
variable {env : Environment} {state : State} {inst : Instruction}
variable (permits : env.PermitsEverything)
variable (ends : ExceptionEnds runtime symbols)
variable (division : Division inst)
variable (short : inst.destinationSize ≠ .qword)
variable (aligned : TableAligned state)
variable (clean : strayBits inst.destinationSize state = 0)

include permits ends division short aligned clean

theorem raisesExactly_iff :
    RaisesExactly (JumpTable.dispatch runtime env) symbols
        (generate symbols inst) inst state ↔
      ((inst.getOperand 0).isMem = true ->
        inst.AddressFits (inst.getOperand 0) state) ∧
      ChecksSuffice inst state := by
  obtain ⟨visited, exit, traces, accesses, outcome⟩ :=
    @generate_ends runtime symbols env state inst permits ends aligned
  let raised : Prop := ∃ called,
    exit = .left (JumpTable.Entry.cWrapper.address state) called ∧
      called.get .t4 = symbols.divisionException
  -- With the right divisor, the exception is that of the checks.
  have decides : ((inst.getOperand 0).isMem = true ->
        inst.AddressFits (inst.getOperand 0) state) ->
      (raised ↔ Faults (isSigned inst) inst.destinationSize
        (extend (isSigned inst) (divisorBits inst state) 64)
        (strayDividend (isSigned inst) inst.destinationSize state)) ∧
      ∀ target called, exit = .left target called ->
        ∀ reg, called.get (mapReg reg) = state.get (mapReg reg) := by
    intro fits
    obtain ⟨raises, divides⟩ := outcome
    rw [loadDivisor_value division fits env.origin] at raises divides
    by_cases faulty : Faults (isSigned inst) inst.destinationSize
        (extend (isSigned inst) (divisorBits inst state) 64)
        (strayDividend (isSigned inst) inst.destinationSize state)
    · obtain ⟨called, rfl, function, kept⟩ := raises faulty
      refine ⟨iff_of_true ⟨called, rfl, function⟩ faulty, ?_⟩
      rintro _ _ ⟨rfl, rfl⟩
      exact kept
    · obtain ⟨next, rfl, -⟩ := divides faulty
      refine ⟨iff_of_false ?_ faulty, ?_⟩
      · rintro ⟨called, left, -⟩
        cases left
      · intro target called left
        cases left
  have suffice := @checksSuffice_iff inst _ short clean
  constructor
  · rintro ⟨other, otherExit, otherTraces, otherAccesses, exactly, -⟩
    obtain ⟨rfl, rfl⟩ := traces.unique otherTraces
    have fits := (loadDivisor_accesses_iff env.origin).mp
      (accesses.symm.trans otherAccesses)
    exact ⟨fits, suffice.mp ((decides fits).1.symm.trans exactly)⟩
  · rintro ⟨fits, checks⟩
    obtain ⟨decided, kept⟩ := decides fits
    exact ⟨visited, exit, traces,
      accesses.trans ((loadDivisor_accesses_iff env.origin).mpr fits),
      decided.trans (suffice.mpr checks), kept⟩

/-- The exception is raised exactly when it should be if and only if the address
of the divisor fits and the checks suffice. -/
theorem generate_raises_iff (entries : Nat) :
    (∃ code, inst.generate symbols entries = some code ∧
      RaisesExactly (JumpTable.dispatch runtime env) symbols code inst
        state) ↔
      ((inst.getOperand 0).isMem = true ->
        inst.AddressFits (inst.getOperand 0) state) ∧
      ChecksSuffice inst state := by
  simp only [division.generated symbols entries, Option.some.injEq,
    exists_eq_left']
  exact raisesExactly_iff permits ends division short aligned clean

end Iff

/-- `div cx` and `div cl` -/
def divC (size : OperandSize) : Instruction :=
  InstructionClass.idiv.construct
    { type := .div, operands := [.reg size 1 .gpl] }

theorem divC_division (size : OperandSize) : Division (divC size) where
  division := rfl
  rm := rfl
  valid := by cases size <;> rfl

/-- The dividend is 65636 in two parts, and the divisor is seven. -/
def cleanState : State :=
  ((zeroState.set (mapReg 0) 100).set (mapReg 2) 1).set (mapReg 1) 7

theorem generate_divides_iff_divCx :
    ∃ code, (divC .word).generate sampleSymbols 0 = some code ∧
      Divides (JumpTable.dispatch (fun _ _ => none) Stub.environment) code
        (divC .word) cleanState := by
  have divisible : Divisible (divC .word) cleanState :=
    ⟨by decide, by decide +kernel, fun qword => by cases qword⟩
  refine (generate_divides_iff (fun _ _ => rfl) (fun _ _ => rfl)
    (divC_division .word) (by decide) divisible 0).mpr
      ⟨fun _ => by decide +kernel, ⟨by decide +kernel, Or.inr ?_,
        by decide +kernel⟩⟩
  decide +kernel

/-- A bit above the dividend of zero is set, and the divisor is three. -/
def strayState : State := (zeroState.set (mapReg 0) 0x10000).set (mapReg 1) 3

theorem divCx_divisible : Divisible (divC .word) strayState where
  nonzero := by decide
  fits := by decide +kernel
  extended := by
    intro qword
    cases qword

/-- The bit gets into the quotient. -/
theorem divCx_divides_stray :
    Divisible (divC .word) strayState ∧
      ¬ ∃ code, (divC .word).generate sampleSymbols 0 = some code ∧
        Divides (JumpTable.dispatch (fun _ _ => none) Stub.environment) code
          (divC .word) strayState := by
  refine ⟨divCx_divisible, ?_⟩
  rintro ⟨code, generated, divides⟩
  rw [(divC_division .word).generated, Option.some.injEq] at generated
  subst generated
  have vanish := ((divides_iff (fun _ _ => rfl) (fun _ _ => rfl)
    (divC_division .word) (by decide) divCx_divisible.nonzero).mp divides).2
  have multiple := vanish.multiple
  revert multiple
  decide +kernel

/-- The dividend is 0x105 and the divisor is zero. -/
theorem generate_raises_iff_divCl :
    let state := (zeroState.set (mapReg 0) 0x105).set (mapReg 1) 0x200
    ∃ code, (divC .byte).generate sampleSymbols 0 = some code ∧
      RaisesExactly (JumpTable.dispatch (fun _ _ => none) Stub.environment)
        sampleSymbols code (divC .byte) state :=
  (generate_raises_iff (fun _ _ => rfl) (fun _ _ => rfl)
    (divC_division .byte) (by decide) (by decide) rfl 0).mpr
      ⟨fun _ => by decide +kernel, Or.inl (by decide +kernel)⟩

/-- The dividend is 256 and the divisor is one. -/
def tooLargeState : State := (zeroState.set (mapReg 0) 0x100).set (mapReg 1) 1

/-- The quotient does not fit, and there is no exception. -/
theorem divCl_raises_nothing :
    ¬ ∃ code, (divC .byte).generate sampleSymbols 0 = some code ∧
      RaisesExactly (JumpTable.dispatch (fun _ _ => none) Stub.environment)
        sampleSymbols code (divC .byte) tooLargeState := by
  rintro ⟨code, generated, exactly⟩
  rw [(divC_division .byte).generated, Option.some.injEq] at generated
  subst generated
  have checks := ((raisesExactly_iff (fun _ _ => rfl) (fun _ _ => rfl)
    (divC_division .byte) (by decide) (by decide) rfl).mp exactly).2
  revert checks
  unfold ChecksSuffice
  decide +kernel

end Idiv

end Oxtra

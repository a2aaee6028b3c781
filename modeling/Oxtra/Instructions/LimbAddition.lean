import Oxtra.Instructions.Addition
import Oxtra.Instructions.Sparing
import Oxtra.Library.Limbs

/-!
# Additions of several words

An `ADD` of the lowest words and an `ADC` for each of the others.  The carry
between them is not stored: the next addition evaluates it from the operands
that the one before has stored.
-/

namespace Oxtra

open RiscV
open Encoding
open Helper
open FlagInfo
open Instruction
open Fadec (Operand OperandSize)

/-! ## One addition -/

/-- An addition of two long registers that updates the carry flag. -/
structure Limb where
  inst : Instruction
  destination : Fadec.Register
  source : Fadec.Register
  first : inst.getOperand 0 = .reg .qword destination .gpl
  second : inst.getOperand 1 = .reg .qword source .gpl
  updated : Flag.carry ∈ inst.updateFlags

/-- What an addition of two words leaves. -/
structure Limb.Added
    (limb : Limb)
    (carry : Bool)
    (before after : State) : Prop where
  sum : after.get (mapReg limb.destination) =
    before.get (mapReg limb.destination) + before.get (mapReg limb.source) +
      bit carry
  kept : ∀ reg, reg ≠ limb.destination ->
    after.get (mapReg reg) = before.get (mapReg reg)
  table : after.get jumpTableAddress = before.get jumpTableAddress
  carryOut : CarryIn .adc after
    (additionFlags (before.get (mapReg limb.destination))
      (before.get (mapReg limb.source)) carry .carry)

/-- The carry flag from the fields of an addition. -/
theorem carryIn_of_fields
    {state : State}
    {first second sum source : Word}
    {carry : Bool}
    {contents : Field -> Word}
    (stored : fields state = carrySlots.write
      (some (additionEntries .qword carry).1) (some source) (some sum)
      contents)
    (isSecond : source = second)
    (isSum : sum = first + second + bit carry) :
    CarryIn .adc state (additionFlags first second carry .carry) := by
  have carryWord : bit carry = BitVec.ofNat 64 carry.toNat := by
    cases carry <;> rfl
  rw [carryWord] at isSum
  refine ⟨(additionEntries .qword carry).1, ?_, ?_⟩
  · rw [stored]
    rfl
  · rw [stored]
    change (additionEntries .qword carry).1.carryFlag source sum = _
    subst isSecond isSum
    have sourceBits : source.setWidth OperandSize.qword.bits = source :=
      BitVec.setWidth_eq _
    have sumBits : (first + source + BitVec.ofNat 64 carry.toNat).setWidth
        OperandSize.qword.bits = addition first source carry :=
      BitVec.setWidth_eq _
    cases carry with
    | false => exact carryAdd_flag sourceBits sumBits
    | true => exact carryAdc_flag sourceBits sumBits

/-- The fields of the carry flag after `ADD`, whether or not the other flags
are updated. -/
theorem Add.executeRegister_carry
    (inst : Instruction)
    (updated : Flag.carry ∈ inst.updateFlags)
    {dst src : Register}
    (scratch : Scratch dst)
    (dstNotTemp : dst ≠ .t4)
    (srcNotTemp : src ≠ .t4)
    (different : src ≠ dst)
    (pc : Word)
    (state : State) :
    ∃ contents,
      fields (applyAll pc state (Add.executeRegister inst dst src)) =
        carrySlots.write (some (additionEntries inst.destinationSize false).1)
          (some (state.get src)) (some (state.get dst + state.get src))
          contents := by
  let entries := inst.destinationEntries .carryAdd .overflowAdd
  have updates := inst.updateOverflow_updates entries.2 src dst .t4
  let stored := applyAll pc state (inst.updateOverflow entries.2 src dst .t4)
  let added := stored.set dst (stored.get src + stored.get dst)
  have first : stored.get dst = state.get dst :=
    updates.get pc state (by simpa)
  have second : stored.get src = state.get src :=
    updates.get pc state (by simpa)
  refine ⟨fields added, ?_⟩
  change fields (applyAll pc state
    (inst.updateOverflow entries.2 src dst .t4 ++ [add dst src dst] ++
      inst.updateCarry entries.1 src dst .t4)) = _
  rw [applyAll_append, inst.updateCarry_fields updated _ _ _
      (fun _ => by decide) (by simpa) (by simpa), applyAll_append,
    applyAll_cons, applyAll_nil, apply_add]
  change carrySlots.write _ (some (added.get src)) (some (added.get dst))
    (fields added) = _
  rw [State.set_get_self _ _ scratch.1, State.set_get_of_ne _ _ different,
    first, second, add_comm (state.get src)]
  rfl

namespace Limb

variable (limb : Limb)

theorem registerOperands : limb.inst.RegisterOperands where
  first := by
    rw [limb.first]
    rfl
  second := by
    rw [limb.second]
    exact Or.inl rfl
  firstValid := by
    rw [limb.first]
    rfl
  secondValid := by
    rw [limb.second]
    rfl
  sameSize := by
    rw [limb.first, limb.second]
    rfl

theorem immediateSource_eq : limb.inst.immediateSource = false := by
  rw [immediateSource, limb.second]
  rfl

theorem destinationSize_eq : limb.inst.destinationSize = .qword := by
  rw [destinationSize, limb.first]
  rfl

theorem workRegister_eq : limb.inst.workRegister = mapReg limb.destination := by
  rw [workRegister, limb.first]
  rfl

theorem sourceRegister_eq :
    limb.inst.translateSource.value = mapReg limb.source := by
  rw [limb.inst.translateSource_register limb.immediateSource_eq, limb.second]
  rfl

/-- A register of the guest is none that the translation uses. -/
theorem mapReg_scratch (reg : Fadec.Register) :
    Scratch (mapReg reg) ∧ mapReg reg ∉ [Register.t4, .t5, .t6, .ra] := by
  have guest := isGuest_mapReg reg
  refine ⟨⟨ne_of_isGuest guest (by decide), ne_of_isGuest guest (by decide)⟩,
    ?_⟩
  simp only [List.mem_cons, List.not_mem_nil, or_false, not_or]
  exact ⟨ne_of_isGuest guest (by decide), ne_of_isGuest guest (by decide),
    ne_of_isGuest guest (by decide), ne_of_isGuest guest (by decide)⟩

/-- What the operation leaves in front of the other updates. -/
structure Executed
    (env : Environment)
    (code : List Inst)
    (carry : Bool)
    (before after : State) : Prop where
  exits : env.Exits code before (.ended after)
  kept : ∀ register,
    register ∉ mapReg limb.destination :: executionScratch ->
      after.get register = before.get register
  sum : after.get (mapReg limb.destination) =
    before.get (mapReg limb.destination) + before.get (mapReg limb.source) +
      bit carry
  carryOut : CarryIn .adc after
    (additionFlags (before.get (mapReg limb.destination))
      (before.get (mapReg limb.source)) carry .carry)

section Execute

variable {limb} {runtime : JumpTable.Runtime} {env : Environment}
variable (different : limb.source ≠ limb.destination)
variable (permits : env.PermitsEverything) (state : State)

include different permits

theorem add_executed :
    ∃ after, limb.Executed (JumpTable.dispatch runtime env)
      (Add.executeRegister limb.inst (mapReg limb.destination)
        (mapReg limb.source)) false state after := by
  obtain ⟨scratch, outside⟩ := mapReg_scratch limb.destination
  obtain ⟨-, sourceOutside⟩ := mapReg_scratch limb.source
  simp only [List.mem_cons, List.not_mem_nil, or_false, not_or]
    at outside sourceOutside
  have otherRegister : mapReg limb.source ≠ mapReg limb.destination := by
    simpa using different
  have updates := @Add.executeRegister_updates limb.inst
    (mapReg limb.destination) (mapReg limb.source)
  have permits : (JumpTable.dispatch runtime env).PermitsEverything := permits
  obtain ⟨contents, stored⟩ := Add.executeRegister_carry limb.inst
    limb.updated scratch outside.1 sourceOutside.1 otherRegister env.origin
    state
  have sum := @BinaryOperation.executeRegister_value Instruction.sampleSymbols
    limb.inst (mapReg limb.destination) (mapReg limb.source) env.origin state
    outside.1 scratch.1 .add (by decide) sourceOutside.1
  rw [limb.destinationSize_eq] at stored
  have noCarry : state.get (mapReg limb.destination) +
      state.get (mapReg limb.source) =
        state.get (mapReg limb.destination) +
          state.get (mapReg limb.source) + bit false :=
    (BitVec.add_zero _).symm
  refine ⟨_, Environment.exits_straight updates.straight
    (permits.permitsAll _ _), ?_, sum.trans noCarry,
    carryIn_of_fields stored rfl noCarry⟩
  intro register other
  simp only [executionScratch, List.mem_cons, List.not_mem_nil, or_false,
    not_or] at other
  exact updates.get _ _ (by simp [other])

theorem adc_executed
    (aligned : TableAligned state)
    {carry : Bool}
    (carryIn : CarryIn .adc state carry) :
    ∃ after, limb.Executed (JumpTable.dispatch runtime env)
      (Adc.executeRegister limb.inst (mapReg limb.destination)
        (mapReg limb.source)) carry state after := by
  obtain ⟨scratch, outside⟩ := mapReg_scratch limb.destination
  obtain ⟨-, sourceOutside⟩ := mapReg_scratch limb.source
  have otherRegister : mapReg limb.source ≠ mapReg limb.destination := by
    simpa using different
  obtain ⟨evaluated, exits, flag, -, kept⟩ :=
    @CarryIn.evaluates runtime env state state carry carryIn permits aligned
      rfl
  let further := env.shift evaluateCarry.length
  have permitsFurther :
      (JumpTable.dispatch runtime further).PermitsEverything := permits
  have updates := @Adc.addEvaluated_updates limb.inst
    (mapReg limb.destination) (mapReg limb.source)
  have first := kept _ outside
  have second := kept _ sourceOutside
  simp only [List.mem_cons, List.not_mem_nil, or_false, not_or]
    at outside sourceOutside
  have destination : mapReg limb.destination ∉ [Register.t4, .t5, .t6] := by
    simp [outside]
  have source : mapReg limb.source ∉ [Register.t4, .t5, .t6] := by
    simp [sourceOutside]
  have sum := Adc.addEvaluated_value limb.inst further.origin evaluated
    scratch.1 destination source
  obtain ⟨contents, stored⟩ := Adc.addEvaluated_carry limb.inst
    further.origin evaluated limb.updated scratch destination source flag
  rw [limb.destinationSize_eq, State.set_get_of_ne _ _ otherRegister, first,
    second] at stored
  rw [first, second, flag] at sum
  refine ⟨_, ?_, ?_, sum, carryIn_of_fields stored rfl rfl⟩
  · rw [Adc.executeRegister_eq]
    exact exits.append (Environment.exits_straight updates.straight
      (permitsFurther.permitsAll _ _)) (by simp)
  · intro register other
    simp only [executionScratch, List.mem_cons, List.not_mem_nil, or_false,
      not_or] at other
    rw [updates.get _ _ (by simp [other]),
      kept _ (by simp [evaluationScratch, other])]

end Execute

/-- The operation of an addition, whatever registers the operands are in. -/
theorem execute_eq
    (symbols : HostSymbols)
    (operation : BinaryOperation) :
    operation.execute symbols limb.inst =
      operation.executeRegister symbols limb.inst (mapReg limb.destination)
        (mapReg limb.source) := by
  have notZero : mapReg limb.source ≠ .zero := (mapReg_scratch _).1.1
  rw [BinaryOperation.execute, limb.sourceRegister_eq, limb.workRegister_eq,
    if_pos notZero]

/-- An addition of two words leaves the sum and its carry, and keeps the other
registers. -/
theorem added
    (symbols : HostSymbols)
    (different : limb.source ≠ limb.destination)
    {runtime : JumpTable.Runtime}
    {env : Environment}
    (permits : env.PermitsEverything)
    {state : State}
    (aligned : TableAligned state)
    {operation : BinaryOperation}
    (isAddition : operation = .add ∨ operation = .adc)
    {carry : Bool}
    (carryIn : CarryIn operation state carry) :
    ∃ after, (JumpTable.dispatch runtime env).Exits
        (operation.generate symbols limb.inst) state (.ended after) ∧
      limb.Added carry state after := by
  have form := limb.registerOperands
  have loaded := form.prepared env.origin state
  have loadedGuest : ∀ reg, (applyAll env.origin state
      (limb.inst.translateSource.code ++ limb.inst.translateFirst.code)).get
        (mapReg reg) = state.get (mapReg reg) :=
    fun reg => loaded.others _ (by simp)
  have loadedTable := loaded.others jumpTableAddress (by decide)
  have sameFields := fields_congr loaded.mem
    (loaded.others contextAddress (by decide))
  have alignedLoaded : TableAligned (applyAll env.origin state
      (limb.inst.translateSource.code ++ limb.inst.translateFirst.code)) := by
    rw [TableAligned, loadedTable]
    exact aligned
  let further := env.shift (limb.inst.translateSource.code ++
    limb.inst.translateFirst.code).length
  have permitsFurther : further.PermitsEverything := permits
  obtain ⟨executed, executes⟩ : ∃ executed,
      limb.Executed (JumpTable.dispatch runtime further)
        (operation.execute symbols limb.inst) carry
        (applyAll env.origin state (limb.inst.translateSource.code ++
          limb.inst.translateFirst.code)) executed := by
    rw [limb.execute_eq]
    rcases isAddition with rfl | rfl
    · rw [show carry = false from carryIn]
      exact add_executed different permitsFurther _
    · refine adc_executed different permitsFurther _ alignedLoaded ?_
      rw [CarryIn, sameFields]
      exact carryIn
  obtain ⟨final, exits, finished, table⟩ := form.completes permits
    executes.exits (by
      rw [limb.workRegister_eq]
      exact executes.kept)
  rw [operation.generate_eq symbols form.inRegister]
  have registers := finished.registers
  rw [limb.first, limb.workRegister_eq, executes.sum, loadedGuest,
    loadedGuest] at registers
  refine ⟨final, exits, ?_, ?_, table, ?_⟩
  · exact (registers limb.destination).trans (if_pos rfl)
  · intro reg other
    refine (registers reg).trans (if_neg ?_)
    exact fun same => other (mapReg_injective same)
  · have carryOut := executes.carryOut
    rw [loadedGuest, loadedGuest] at carryOut
    obtain ⟨entry, operation, flag⟩ := carryOut
    exact ⟨entry, finished.fields ▸ operation, finished.fields ▸ flag⟩

end Limb

/-! ## Instructions in between -/

/-- The fields of the carry flag are the same in two states, as are the
registers for the context and the jump table. -/
def CarryKept (before after : State) : Prop :=
  ∀ field : Field, field.flag = .carry -> field.region.Same before after

/-- The carry flag that an addition adds depends on its fields only. -/
theorem CarryKept.carryIn
    {before after : State}
    (kept : CarryKept before after)
    {carry : Bool}
    (carryIn : CarryIn .adc before carry) :
    CarryIn .adc after carry := by
  obtain ⟨entry, operation, flag⟩ := carryIn
  have same : ∀ field : Field, field.flag = .carry ->
      fields after field = fields before field :=
    fun field isCarry => Field.read_eq_of_same (kept field isCarry)
  refine ⟨entry, ?_, ?_⟩
  · rw [same .carryOperation rfl, operation]
  · rw [same .carryFirst rfl, same .carrySecond rfl, flag]

theorem CarryKept.aligned
    {before after : State}
    (kept : CarryKept before after)
    (aligned : TableAligned before) : TableAligned after := by
  have table := (kept .carryOperation rfl).registers jumpTableAddress
    (by simp [Field.region])
  rw [TableAligned, table]
  exact aligned

section Chain

variable (symbols : HostSymbols) (runtime : JumpTable.Runtime)
variable (registers : List Fadec.Register)

/-- Instructions run to their end that do not declare an update of the carry
flag and keep the given registers.  Their stores to the memory of the guest do
not reach the fields of the carry flag. -/
inductive Between : State -> State -> Prop where
  | nothing (state : State) : Between state state
  | instruction
      {inst : Instruction}
      {entries : Nat}
      {code : List Inst}
      {env : Environment}
      {before middle after : State}
      (undeclared : Flag.carry ∉ inst.instructionClass.declaredUpdate)
      (generated : inst.generate symbols entries = some code)
      (stores : ∀ field : Field, field.flag = .carry ->
        env.StoresOutside field.region code)
      (exits : (JumpTable.dispatch runtime env).Exits code before
        (.ended middle))
      (kept : ∀ reg ∈ registers,
        middle.get (mapReg reg) = before.get (mapReg reg))
      (further : Between middle after) :
      Between before after

/-- The instructions run one after the other, with any others in between: every
addition runs to its end, and the state at the end meets the condition. -/
def Additions
    (operation : BinaryOperation)
    (limbs : List Limb)
    (state : State)
    (condition : State -> Prop) : Prop :=
  match limbs with
  | [] => condition state
  | limb :: further =>
      ∀ env : Environment, env.PermitsEverything ->
        ∃ added, (JumpTable.dispatch runtime env).Exits
            (operation.generate symbols limb.inst) state (.ended added) ∧
          ∀ next, Between symbols runtime registers added next ->
            Additions .adc further next condition

variable {symbols runtime registers}

/-- The instructions in between keep the registers and the carry flag. -/
theorem Between.kept
    (runtimeKeeps : ∀ field : Field, field.flag = .carry ->
      JumpTable.RuntimeKeeps runtime field)
    {before after : State}
    (between : Between symbols runtime registers before after) :
    CarryKept before after ∧ ∀ reg ∈ registers,
      after.get (mapReg reg) = before.get (mapReg reg) := by
  induction between with
  | nothing state =>
      exact ⟨fun field _ => Region.Same.refl _ state, fun _ _ => rfl⟩
  | instruction undeclared generated stores exits kept _ inductionHypothesis =>
      obtain ⟨carryKept, registersKept⟩ := inductionHypothesis
      constructor
      · intro field isCarry
        have spares := Instruction.generate_spares _ symbols _ generated
          (isCarry ▸ undeclared) (fun _ other => absurd isCarry other)
        have outside := JumpTable.dispatch_staysOutside
          (runtimeKeeps field isCarry) (stores field isCarry)
        exact (exits.same field.region_wellPlaced outside spares rfl).trans
          field.region_wellPlaced (carryKept field isCarry)
      · intro reg member
        exact (registersKept reg member).trans (kept reg member)

theorem Additions.mono
    {operation : BinaryOperation}
    {limbs : List Limb}
    {state : State}
    {condition weaker : State -> Prop}
    (additions : Additions symbols runtime registers operation limbs state
      condition)
    (implies : ∀ after, condition after -> weaker after) :
    Additions symbols runtime registers operation limbs state weaker := by
  induction limbs generalizing operation state with
  | nil => exact implies state additions
  | cons limb further inductionHypothesis =>
      intro env permits
      obtain ⟨added, exits, behind⟩ := additions env permits
      exact ⟨added, exits,
        fun next between => inductionHypothesis (behind next between)⟩

/-! ## The sum of all words -/

/-- The words in the destinations. -/
def destinationWords (limbs : List Limb) (state : State) : List Word :=
  limbs.map fun limb => state.get (mapReg limb.destination)

/-- The words in the sources. -/
def sourceWords (limbs : List Limb) (state : State) : List Word :=
  limbs.map fun limb => state.get (mapReg limb.source)

/-- The registers of the words are kept in between, every word has its own
destination, and no source is a destination. -/
structure Separate
    (registers : List Fadec.Register)
    (limbs : List Limb) : Prop where
  destinations : ∀ limb ∈ limbs, limb.destination ∈ registers
  sources : ∀ limb ∈ limbs, limb.source ∈ registers
  different : (limbs.map Limb.destination).Nodup
  apart : ∀ limb ∈ limbs, ∀ other ∈ limbs, limb.source ≠ other.destination

theorem Separate.tail
    {limb : Limb}
    {further : List Limb}
    (separate : Separate registers (limb :: further)) :
    Separate registers further where
  destinations other member :=
    separate.destinations other (List.mem_cons_of_mem _ member)
  sources other member :=
    separate.sources other (List.mem_cons_of_mem _ member)
  different := (List.nodup_cons.mp separate.different).2
  apart first firstMember second secondMember :=
    separate.apart first (List.mem_cons_of_mem _ firstMember) second
      (List.mem_cons_of_mem _ secondMember)

/-- The state after additions of some words. -/
structure Summed
    (registers : List Fadec.Register)
    (limbs : List Limb)
    (carryIn : Bool)
    (before after : State)
    (carryOut : Bool) : Prop where
  sums : Limbs.Sums (destinationWords limbs after)
    (destinationWords limbs before) (sourceWords limbs before) carryIn carryOut
  carry : CarryIn .adc after carryOut
  aligned : TableAligned after
  kept : ∀ reg ∈ registers, reg ∉ limbs.map Limb.destination ->
    after.get (mapReg reg) = before.get (mapReg reg)

/-- The registers of the words behind the first one, after its addition. -/
theorem Limb.Added.further_kept
    {limb : Limb}
    {further : List Limb}
    (separate : Separate registers (limb :: further))
    {carry : Bool}
    {before added next : State}
    (adds : limb.Added carry before added)
    (kept : ∀ reg ∈ registers,
      next.get (mapReg reg) = added.get (mapReg reg)) :
    destinationWords further next = destinationWords further before ∧
      sourceWords further next = sourceWords further before := by
  constructor
  · apply List.map_congr_left
    intro other member
    have inside := separate.tail.destinations other member
    have otherRegister : other.destination ≠ limb.destination := by
      intro same
      exact (List.nodup_cons.mp separate.different).1
        (same ▸ List.mem_map_of_mem member)
    exact (kept _ inside).trans (adds.kept _ otherRegister)
  · apply List.map_congr_left
    intro other member
    have inside := separate.tail.sources other member
    have otherRegister := separate.apart other
      (List.mem_cons_of_mem _ member) limb List.mem_cons_self
    exact (kept _ inside).trans (adds.kept _ otherRegister)

/-- The addition of the first words in front of those of the others. -/
theorem Summed.cons
    {limb : Limb}
    {further : List Limb}
    (separate : Separate registers (limb :: further))
    {carry carryOut : Bool}
    {before added next after : State}
    (adds : limb.Added carry before added)
    (kept : ∀ reg ∈ registers,
      next.get (mapReg reg) = added.get (mapReg reg))
    (summed : Summed registers further
      (additionFlags (before.get (mapReg limb.destination))
        (before.get (mapReg limb.source)) carry .carry) next after carryOut) :
    Summed registers (limb :: further) carry before after carryOut := by
  obtain ⟨destinations, sources⟩ := adds.further_kept separate kept
  have inside := separate.destinations limb List.mem_cons_self
  have sums := summed.sums
  rw [destinations, sources] at sums
  have carryWord : bit carry = BitVec.ofNat 64 carry.toNat := by
    cases carry <;> rfl
  have lowest : after.get (mapReg limb.destination) =
      before.get (mapReg limb.destination) + before.get (mapReg limb.source) +
        BitVec.ofNat 64 carry.toNat := by
    rw [summed.kept _ inside (List.nodup_cons.mp separate.different).1,
      kept _ inside, adds.sum, carryWord]
  have exactSum := Limbs.sum_toNat (before.get (mapReg limb.destination))
    (before.get (mapReg limb.source)) carry
  rw [← lowest] at exactSum
  refine ⟨sums.cons exactSum, summed.carry, summed.aligned, ?_⟩
  · intro reg member outside
    rw [List.map_cons, List.mem_cons, not_or] at outside
    rw [summed.kept reg member outside.2, kept reg member,
      adds.kept reg outside.1]

section Sum

variable (runtimeKeeps : ∀ field : Field, field.flag = .carry ->
  JumpTable.RuntimeKeeps runtime field)

include runtimeKeeps

/-- A word that is added in front of words whose sum is known. -/
theorem additions_cons
    {limb : Limb}
    {further : List Limb}
    (separate : Separate registers (limb :: further))
    {operation : BinaryOperation}
    (isAddition : operation = .add ∨ operation = .adc)
    {state : State}
    (aligned : TableAligned state)
    {carry : Bool}
    (carryIn : CarryIn operation state carry)
    (sum : ∀ next carry, TableAligned next -> CarryIn .adc next carry ->
      Additions symbols runtime registers .adc further next fun after =>
        ∃ carryOut, Summed registers further carry next after carryOut) :
    Additions symbols runtime registers operation (limb :: further) state
      fun after => ∃ carryOut,
        Summed registers (limb :: further) carry state after carryOut := by
  intro env permits
  have different := separate.apart limb List.mem_cons_self limb
    List.mem_cons_self
  obtain ⟨added, exits, adds⟩ := limb.added symbols different permits aligned
    isAddition carryIn
  have addedAligned : TableAligned added := by
    rw [TableAligned, adds.table]
    exact aligned
  refine ⟨added, exits, fun next between => ?_⟩
  obtain ⟨carryKept, registersKept⟩ := between.kept runtimeKeeps
  refine (sum next _ (carryKept.aligned addedAligned)
    (carryKept.carryIn adds.carryOut)).mono ?_
  rintro after ⟨carryOut, summed⟩
  exact ⟨carryOut, summed.cons separate adds registersKept⟩

/-- The words that are added with a carry. -/
theorem adc_additions
    {limbs : List Limb}
    (separate : Separate registers limbs)
    {state : State}
    (aligned : TableAligned state)
    {carry : Bool}
    (carryIn : CarryIn .adc state carry) :
    Additions symbols runtime registers .adc limbs state fun after =>
      ∃ carryOut, Summed registers limbs carry state after carryOut := by
  induction limbs generalizing state carry with
  | nil =>
      exact ⟨carry, Limbs.Sums.nil carry, carryIn, aligned,
        fun _ _ _ => rfl⟩
  | cons limb further inductionHypothesis =>
      exact additions_cons runtimeKeeps separate (Or.inr rfl) aligned carryIn
        fun _ _ nextAligned nextCarry =>
          inductionHypothesis separate.tail nextAligned nextCarry

/-- An `ADD` and as many `ADC`s as there are further words leave the exact sum
in the destinations, and its carry in the carry flag. -/
theorem additions_sum
    {limbs : List Limb}
    (nonempty : limbs ≠ [])
    (separate : Separate registers limbs)
    {state : State}
    (aligned : TableAligned state) :
    Additions symbols runtime registers .add limbs state fun after =>
      let sum := Limbs.value (destinationWords limbs state) +
        Limbs.value (sourceWords limbs state)
      Limbs.value (destinationWords limbs after) =
          sum % 2 ^ (64 * limbs.length) ∧
        ∀ env : Environment, env.PermitsEverything ->
          Evaluates (JumpTable.dispatch runtime env) evaluateCarry after
            (2 ^ (64 * limbs.length) ≤ sum) := by
  cases limbs with
  | nil => exact absurd rfl nonempty
  | cons limb further =>
      refine (additions_cons runtimeKeeps separate (Or.inl rfl) aligned rfl
        fun next carry nextAligned carryIn =>
          adc_additions runtimeKeeps separate.tail nextAligned carryIn).mono ?_
      rintro after ⟨carryOut, summed⟩
      obtain ⟨value, carry⟩ := summed.sums.exact
      rw [destinationWords, List.length_map, ← Nat.pow_mul] at value carry
      refine ⟨value, fun env permits => ?_⟩
      have evaluates := @CarryIn.evaluates runtime env after after carryOut
        summed.carry permits summed.aligned rfl
      rw [carry] at evaluates
      exact evaluates

end Sum

end Chain

/-- `add rax, rbx` -/
def lowestLimb : Limb where
  inst := addRax 3
  destination := 0
  source := 3
  first := rfl
  second := rfl
  updated := by decide

/-- `adc rcx, rdx` -/
def highestLimb : Limb where
  inst := (InstructionClass.binaryOperation .adc).construct
    { type := .adc
      operands := [.reg .qword 1 .gpl, .reg .qword 2 .gpl] }
  destination := 1
  source := 2
  first := rfl
  second := rfl
  updated := by decide

/-- No routine of the runtime comes back. -/
theorem runtimeKeeps_of_never (field : Field) :
    JumpTable.RuntimeKeeps (fun _ _ => none) field := by
  intro routine state returned returns
  cases returns

theorem additions_sum_limbs :
    Additions sampleSymbols (fun _ _ => none) [0, 1, 2, 3] .add
      [lowestLimb, highestLimb] highestRax fun after =>
      let sum := Limbs.value (destinationWords [lowestLimb, highestLimb]
          highestRax) +
        Limbs.value (sourceWords [lowestLimb, highestLimb] highestRax)
      Limbs.value (destinationWords [lowestLimb, highestLimb] after) =
          sum % 2 ^ (64 * [lowestLimb, highestLimb].length) ∧
        ∀ env : Environment, env.PermitsEverything ->
          Evaluates (JumpTable.dispatch (fun _ _ => none) env) evaluateCarry
            after (2 ^ (64 * [lowestLimb, highestLimb].length) ≤ sum) :=
  additions_sum (fun field _ => runtimeKeeps_of_never field) (by decide)
    ⟨by decide, by decide, by decide, by decide⟩ (by decide)

end Oxtra

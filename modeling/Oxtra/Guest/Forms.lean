import Oxtra.Guest.Conditions
import Oxtra.Guest.MemoryMoves
import Oxtra.Instructions.Generate

/-!
# Instructions that the code follows

The forms of the instructions whose generated code does on the host what they
do on the machine.  This holds for every update set that an instruction may be
assigned, also if it has flags that the instruction does not declare.
-/

namespace Oxtra
namespace Guest

open RiscV
open Helper
open FlagInfo
open Instruction
open Fadec (Operand OperandSize)

/-! ## Forms -/

/-- The forms of instructions without branches. -/
inductive Form (inst : Instruction) : Prop where
  | binary (operation : BinaryOperation)
      (kind : inst.instructionClass = .binaryOperation operation)
      (form : inst.RegisterForm)
      (keepsSource : KeepsSource inst operation)
  | unary (operation : UnaryOperation)
      (kind : inst.instructionClass = .unaryOperation operation)
      (form : inst.RegisterDestination)
  | comparison (operation : Comparable)
      (kind : inst.instructionClass = .comparable operation)
      (form : inst.RegisterForm)
      (comparesRight : ComparesRight inst operation)
  | clearCarry (kind : inst.instructionClass = .clc)
  | setCarry (kind : inst.instructionClass = .stc)
  | noOperation (kind : inst.instructionClass = .nop)
  | move
      (kind : inst.instructionClass = .mov)
      (move : inst.RegisterMove)
      (movesApart : MovesApart inst)
  | extension
      (extending : inst.instructionClass = .movzx ∨
        inst.instructionClass = .movsx)
      (move : inst.RegisterMove)
      (whole : ExtendsWhole inst)
  | loadAddress (size sourceSize : OperandSize)
      (register : Fadec.Register)
      (base : Option Fadec.Register)
      (kind : inst.instructionClass = .lea)
      (long : size ≠ .byte)
      (first : inst.getOperand 0 = .reg size register .gpl)
      (second : inst.getOperand 1 = .mem sourceSize base)
  | conditionalSet (condition : Condition)
      (register : Fadec.Register)
      (kind : inst.instructionClass = .setcc condition)
      (destination : inst.getOperand 0 = .reg .byte register .gpl)
  | conditionalMove (condition : Condition)
      (form : Cmov.ConditionalMove inst condition)
      (source : (inst.getOperand 1).isReg = true)
  | load (size sourceSize : OperandSize)
      (number : Fadec.Register)
      (base : Option Fadec.Register)
      (signed : Bool)
      (form : LoadForm inst size sourceSize number base signed)
  | store (size : OperandSize)
      (base : Option Fadec.Register)
      (form : StoreForm inst size base)
  | immediate (size : OperandSize)
      (number : Fadec.Register)
      (form : ImmediateForm inst size number)
  | push (form : PushForm inst)
  | pop (number : Fadec.Register)
      (form : PopForm inst number)

variable {inst : Instruction}

/-- A form does not depend on the update set. -/
theorem Form.setUpdate
    (form : Form inst)
    (flags : BitVec 8) : Form (inst.setUpdate flags) := by
  cases form with
  | binary operation kind form keepsSource =>
      exact .binary operation kind
        ⟨⟨⟨form.first, form.second, form.firstValid, form.secondValid⟩,
          form.sameSize⟩, form.immediate⟩ keepsSource
  | unary operation kind form =>
      exact .unary operation kind ⟨form.first, form.firstValid⟩
  | comparison operation kind form comparesRight =>
      exact .comparison operation kind
        ⟨⟨⟨form.first, form.second, form.firstValid, form.secondValid⟩,
          form.sameSize⟩, form.immediate⟩ comparesRight
  | clearCarry kind => exact .clearCarry kind
  | setCarry kind => exact .setCarry kind
  | noOperation kind => exact .noOperation kind
  | move kind move movesApart =>
      exact .move kind
        ⟨move.moves, move.destination, move.source, move.destinationValid,
          move.sourceValid, move.sameSize, move.extended⟩ movesApart
  | extension extending move whole =>
      exact .extension extending
        ⟨move.moves, move.destination, move.source, move.destinationValid,
          move.sourceValid, move.sameSize, move.extended⟩ whole
  | loadAddress size sourceSize register base kind long first second =>
      exact .loadAddress size sourceSize register base kind long first second
  | conditionalSet condition register kind destination =>
      exact .conditionalSet condition register kind destination
  | conditionalMove condition form source =>
      exact .conditionalMove condition
        ⟨form.conditional, form.noOverride, form.destination, form.source,
          form.destinationValid, form.sourceValid, form.long, form.sameSize⟩
        source
  | load size sourceSize number base signed form =>
      exact .load size sourceSize number base signed
        ⟨form.first, form.second, form.moves, form.short, form.whole,
          form.made.wide, form.made.kept⟩
  | store size base form =>
      exact .store size base
        ⟨form.kind, form.first, form.source, form.valid, form.sameSize,
          form.wide⟩
  | immediate size number form =>
      exact .immediate size number
        ⟨form.kind, form.first, form.second, form.long⟩
  | push form =>
      exact .push ⟨form.kind, ⟨form.long.size, form.long.valid,
        form.long.valued, form.long.noOverride⟩, form.unused, form.wide⟩
  | pop number form => exact .pop number ⟨form.kind, form.first, form.unused⟩

/-! ## Update sets -/

/-- The instruction with the updates only that its class declares. -/
def declaredOnly (inst : Instruction) : Instruction :=
  inst.setUpdate (inst.updateFlags &&& inst.instructionClass.declaredUpdate)

theorem mem_declaredOnly {flag : Flag} :
    flag ∈ (declaredOnly inst).updateFlags ↔
      flag ∈ inst.updateFlags ∧
        flag ∈ inst.instructionClass.declaredUpdate := by
  rw [declaredOnly, Instruction.setUpdate_updateFlags, Flags.mem_and]

/-- A `NOT` is not assigned a flag of the result. -/
def QuietNot (inst : Instruction) : Prop :=
  inst.instructionClass = .unaryOperation .not ->
    ∀ flag, flag ≠ .carry -> flag ≠ .overflow -> flag ∉ inst.updateFlags

/-- Updates of the declared flags do not look at the others. -/
theorem updating_declaredOnly
    {flag : Flag}
    (declared : flag ∈ inst.updateFlags ->
      flag ∈ inst.instructionClass.declaredUpdate)
    (code : List Inst) :
    (declaredOnly inst).updating flag code = inst.updating flag code :=
  if_congr (mem_declaredOnly.trans (and_iff_left_of_imp declared)) rfl rfl

/-- The code of an operation on one operand does not look at the flags that
the operation does not declare. -/
theorem unary_generate_declaredOnly
    {operation : UnaryOperation}
    (kind : inst.instructionClass = .unaryOperation operation)
    (quiet : QuietNot inst) :
    operation.generate (declaredOnly inst) = operation.generate inst := by
  have resulting : ∀ flag, flag ≠ .carry -> flag ≠ .overflow ->
      flag ∈ inst.updateFlags ->
        flag ∈ inst.instructionClass.declaredUpdate := by
    intro flag notCarry notOverflow member
    rw [kind]
    cases operation with
    | not => exact absurd member (quiet kind flag notCarry notOverflow)
    | inc | dec | neg => cases flag <;> first | decide | contradiction
  have executes : ∀ dst,
      operation.execute (declaredOnly inst) dst = operation.execute inst dst := by
    intro dst
    cases operation with
    | not => rfl
    | inc | dec =>
        have overflow : Flag.overflow ∈ inst.instructionClass.declaredUpdate := by
          rw [kind]
          decide
        exact congrArg (· ++ _) (updating_declaredOnly (fun _ => overflow) _)
    | neg =>
        have overflow : Flag.overflow ∈ inst.instructionClass.declaredUpdate := by
          rw [kind]
          decide
        have carry : Flag.carry ∈ inst.instructionClass.declaredUpdate := by
          rw [kind]
          decide
        exact congrArg (· ++ _) (congrArg₂ (· ++ ·)
          (updating_declaredOnly (fun _ => carry) _)
          (updating_declaredOnly (fun _ => overflow) _))
  have zero : ∀ va size,
      (declaredOnly inst).updateZero va size = inst.updateZero va size :=
    fun _ _ => updating_declaredOnly (resulting _ (by decide) (by decide)) _
  have sign : ∀ va size temp,
      (declaredOnly inst).updateSign va size temp =
        inst.updateSign va size temp :=
    fun _ _ _ => updating_declaredOnly (resulting _ (by decide) (by decide)) _
  have parity : ∀ va,
      (declaredOnly inst).updateParity va = inst.updateParity va :=
    fun _ => updating_declaredOnly (resulting _ (by decide) (by decide)) _
  simp only [UnaryOperation.generate, executes, zero, sign, parity]
  rfl

/-! ## The code follows the machine -/

variable {layout : Layout} {known : Flag -> Prop} {machine after : Machine}
variable {state final : State}
variable {runtime : JumpTable.Runtime} {env : Environment}

/-- What is updated does not depend on the spelling of the update set. -/
theorem Follows.declaredOnly
    (follows : Follows layout inst after state final)
    (all : inst.instructionClass.declaredUpdate = Flags.all) :
    Follows layout (declaredOnly inst) after state final := by
  have members : ∀ flag, flag ∈ (Guest.declaredOnly inst).updateFlags ↔
      flag ∈ inst.updateFlags := by
    intro flag
    rw [mem_declaredOnly, all]
    exact and_iff_left Flags.mem_all
  exact ⟨follows.registers, follows.memory,
    fun flag member => follows.updated flag ((members flag).mp member),
    fun field absent => follows.kept field fun member =>
      absent ((members _).mpr member), follows.host⟩

/-- The code of an instruction does on the host what the instruction does on
the machine, if all its updates are declared. -/
theorem Form.follows_of_declared
    (form : Form inst)
    (declared : ∀ flag ∈ inst.updateFlags,
      flag ∈ inst.instructionClass.declaredUpdate)
    (represents : Represents layout known machine state)
    (required : ∀ flag ∈ inst.instructionClass.declaredRequire, known flag)
    (performs : perform layout.mapped inst machine = some after)
    (permits : env.PermitsEverything)
    (symbols : HostSymbols)
    (entries : Nat) :
    ∃ code final, inst.generate symbols entries = some code ∧
      (JumpTable.dispatch runtime env).Exits code state (.ended final) ∧
      Follows layout inst after state final := by
  have noUpdate : inst.instructionClass.declaredUpdate = Flags.none ->
      ∀ flag, flag ∉ inst.updateFlags := by
    intro none flag member
    have inSet := declared flag member
    rw [none] at inSet
    exact Flags.not_mem_none inSet
  cases form with
  | binary operation kind form keepsSource =>
      have carryKnown : operation = .adc -> known .carry := by
        rintro rfl
        exact required .carry (by rw [kind]; decide)
      obtain ⟨final, exits, follows⟩ := binary_follows symbols kind form
        keepsSource represents carryKnown performs permits
      exact ⟨_, final, by rw [generate, kind], exits, follows⟩
  | unary operation kind form =>
      obtain ⟨final, exits, follows⟩ :=
        unary_follows kind form declared represents performs permits
      exact ⟨_, final, by rw [generate, kind], exits, follows⟩
  | comparison operation kind form comparesRight =>
      obtain ⟨final, exits, follows⟩ := comparable_follows kind form
        comparesRight represents performs permits
      exact ⟨_, final, by rw [generate, kind], exits, follows⟩
  | clearCarry kind =>
      rw [kind] at declared
      simp only [perform, kind, Option.some.injEq] at performs
      obtain ⟨final, exits, follows⟩ :=
        setCarry_follows false declared represents permits
      exact ⟨_, final, by rw [generate, kind]; rfl, exits, performs ▸ follows⟩
  | setCarry kind =>
      rw [kind] at declared
      simp only [perform, kind, Option.some.injEq] at performs
      obtain ⟨final, exits, follows⟩ :=
        setCarry_follows true declared represents permits
      exact ⟨_, final, by rw [generate, kind]; rfl, exits, performs ▸ follows⟩
  | noOperation kind =>
      have none := noUpdate (by rw [kind]; rfl)
      simp only [perform, kind, Option.some.injEq] at performs
      subst performs
      refine ⟨[], state, by rw [generate, kind]; rfl, ⟨1, rfl⟩,
        represents.registers, represents.memory,
        fun flag member => absurd member (none flag), fun _ _ => rfl,
        KeepsHost.refl layout state⟩
  | move kind move movesApart =>
      obtain ⟨final, exits, follows⟩ := mov_follows kind move movesApart
        (noUpdate (by rw [kind]; rfl)) represents performs permits
      exact ⟨_, final, by rw [generate, kind], exits, follows⟩
  | extension extending move whole =>
      have none : inst.instructionClass.declaredUpdate = Flags.none := by
        rcases extending with kind | kind <;> rw [kind] <;> rfl
      exact extension_follows extending move whole (noUpdate none) represents
        performs permits symbols entries
  | loadAddress size sourceSize register base kind long first second =>
      obtain ⟨final, exits, follows⟩ := lea_follows kind long first second
        (noUpdate (by rw [kind]; rfl)) represents performs permits
      exact ⟨_, final, by rw [generate, kind], exits, follows⟩
  | conditionalSet condition register kind destination =>
      rw [kind] at required
      obtain ⟨final, exits, follows⟩ := setcc_follows kind destination
        (noUpdate (by rw [kind]; rfl)) represents required performs permits
      exact ⟨_, final, by rw [generate, kind], exits, follows⟩
  | conditionalMove condition form source =>
      rw [form.conditional] at required
      obtain ⟨final, exits, follows⟩ := cmov_follows form source
        (noUpdate (by rw [form.conditional]; rfl)) represents required performs
        permits
      exact ⟨_, final, by rw [generate, form.conditional], exits, follows⟩
  | load size sourceSize number base signed form =>
      have none : inst.instructionClass.declaredUpdate = Flags.none := by
        rcases form.moves with ⟨kind, -⟩ | ⟨kind, -⟩ | ⟨kind, -⟩ <;>
          rw [kind] <;> rfl
      exact load_move_follows form (noUpdate none) represents performs permits
        symbols entries
  | store size base form =>
      obtain ⟨final, exits, follows⟩ := store_move_follows form
        (noUpdate (by rw [form.kind]; rfl)) represents performs permits
      exact ⟨_, final, by rw [generate, form.kind], exits, follows⟩
  | immediate size number form =>
      obtain ⟨final, exits, follows⟩ := immediate_move_follows form
        (noUpdate (by rw [form.kind]; rfl)) represents performs permits
      exact ⟨_, final, by rw [generate, form.kind], exits, follows⟩
  | push form =>
      obtain ⟨final, exits, follows⟩ := push_follows form
        (noUpdate (by rw [form.kind]; rfl)) represents performs permits
      exact ⟨_, final, by rw [generate, form.kind], exits, follows⟩
  | pop number form =>
      obtain ⟨final, exits, follows⟩ := pop_follows form
        (noUpdate (by rw [form.kind]; rfl)) represents performs permits
      exact ⟨_, final, by rw [generate, form.kind], exits, follows⟩

/-- The code of an instruction that does not declare all updates does not look
at those that it does not declare. -/
theorem Form.generate_declaredOnly
    (form : Form inst)
    (quiet : QuietNot inst)
    (notAll : inst.instructionClass.declaredUpdate ≠ Flags.all)
    (symbols : HostSymbols)
    (entries : Nat) :
    (declaredOnly inst).generate symbols entries =
      inst.generate symbols entries := by
  have same : (declaredOnly inst).instructionClass = inst.instructionClass :=
    rfl
  cases form with
  | binary operation kind => exact absurd (by rw [kind]; rfl) notAll
  | comparison operation kind => exact absurd (by rw [kind]; rfl) notAll
  | unary operation kind =>
      simp only [generate, same, kind, unary_generate_declaredOnly kind quiet]
  | clearCarry kind | setCarry kind =>
      have carry : Flag.carry ∈ inst.instructionClass.declaredUpdate := by
        rw [kind]
        decide
      simp only [generate, same, kind]
      exact congrArg some (updating_declaredOnly (fun _ => carry) _)
  | extension extending =>
      rcases extending with kind | kind <;> simp only [generate, same, kind] <;>
        rfl
  | load size sourceSize number base signed form =>
      rcases form.moves with ⟨kind, -⟩ | ⟨kind, -⟩ | ⟨kind, -⟩ <;>
        simp only [generate, same, kind] <;> rfl
  | conditionalMove condition form =>
      simp only [generate, same, form.conditional]
      rfl
  | store size base form | immediate size base form | pop base form =>
      simp only [generate, same, form.kind]
      rfl
  | push form =>
      simp only [generate, same, form.kind]
      rfl
  | noOperation kind => simp only [generate, same, kind]
  | move kind =>
      simp only [generate, same, kind]
      rfl
  | loadAddress size sourceSize register base kind =>
      simp only [generate, same, kind]
      rfl
  | conditionalSet condition register kind =>
      simp only [generate, same, kind]
      rfl

/-- The code of an instruction does on the host what the instruction does on
the machine.  It needs the flags only that the instruction requires, and
updates those of its update set that the instruction declares. -/
theorem Form.follows
    (form : Form inst)
    (quiet : QuietNot inst)
    (represents : Represents layout known machine state)
    (required : ∀ flag ∈ inst.instructionClass.declaredRequire, known flag)
    (performs : perform layout.mapped inst machine = some after)
    (permits : env.PermitsEverything)
    (symbols : HostSymbols)
    (entries : Nat) :
    ∃ code final, inst.generate symbols entries = some code ∧
      (JumpTable.dispatch runtime env).Exits code state (.ended final) ∧
      Follows layout (declaredOnly inst) after state final := by
  by_cases all : inst.instructionClass.declaredUpdate = Flags.all
  · have declared : ∀ flag ∈ inst.updateFlags,
        flag ∈ inst.instructionClass.declaredUpdate := by
      intro flag _
      rw [all]
      exact Flags.mem_all
    obtain ⟨code, final, generated, exits, follows⟩ :=
      form.follows_of_declared declared represents required performs permits
        symbols entries
    exact ⟨code, final, generated, exits, follows.declaredOnly all⟩
  · rw [← form.generate_declaredOnly quiet all symbols entries]
    exact (form.setUpdate _).follows_of_declared
      (fun flag member => (mem_declaredOnly.mp member).2) represents required
      performs permits symbols entries

end Guest
end Oxtra

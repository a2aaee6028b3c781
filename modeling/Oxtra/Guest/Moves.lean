import Oxtra.Guest.Operations

/-!
# Moves of the guest

The instructions that declare no update of a flag.  Their code writes a
register of the guest and temporaries, or a part of the memory that is mapped,
and keeps the lazy information.
-/

namespace Oxtra
namespace Guest

open RiscV
open Encoding
open Helper
open FlagInfo
open Instruction
open TwosComplement
open Fadec (Operand OperandSize)

variable {layout : Layout} {known : Flag -> Prop} {machine after : Machine}
variable {inst : Instruction} {state final : State}
variable {runtime : JumpTable.Runtime} {env : Environment}

/-! ## Writes to registers -/

section Register

variable {size : OperandSize} {number : Fadec.Register}
variable {type : Fadec.RegisterType}

/-- The registers that the code of a move may change. -/
theorem guestAndTemporaries_inside :
    ∀ register ∈ mapRegType number type :: temporaries,
      isGuest register = true ∨ register ∈ temporaries := by
  intro register member
  rcases List.mem_cons.mp member with rfl | temporary
  · exact Or.inl (isGuest_mapRegType number type)
  · exact Or.inr temporary

theorem context_not_mem :
    contextAddress ∉ mapRegType number type :: temporaries :=
  List.not_mem_cons_of_ne_of_not_mem
    (ne_of_isGuest (isGuest_mapRegType number type) (by decide)).symm
    (by decide)

/-- A word is written to a register of the guest, and nothing is changed but
temporaries and the place for saved registers. -/
theorem follows_of_register
    (represents : Represents layout known machine state)
    (noUpdate : ∀ flag, flag ∉ inst.updateFlags)
    (unchanged : Unchanged (mapRegType number type :: temporaries) state final)
    {word : Word}
    (value : final.get (mapRegType number type) =
      (RegisterAccess.ofType size type).merge
        (state.get (mapRegType number type)) word)
    (write : machine.write layout.mapped inst (.reg size number type) word =
      some after) :
    Follows layout inst after state final := by
  obtain ⟨registers, same⟩ := represents.writtenRegisters rfl write
  have sameMemory : after.memory = machine.memory := by rw [same]
  have others : ∀ reg, mapReg reg ≠ mapRegType number type ->
      final.get (mapReg reg) = state.get (mapReg reg) := by
    intro reg other
    apply unchanged.registers
    rw [List.mem_cons, not_or]
    refine ⟨other, fun member => ?_⟩
    have reserved : ∀ temporary ∈ temporaries, isGuest temporary = false := by
      decide
    have guest := isGuest_mapReg reg
    rw [reserved _ member] at guest
    cases guest
  refine ⟨fun reg => ?_, fun pointer mapped => ?_,
    fun flag member => absurd member (noUpdate flag),
    fun field _ => congrFun (unchanged.fields_eq context_not_mem) field,
    KeepsHost.of_unchanged unchanged guestAndTemporaries_inside⟩
  · rw [(writtenRegisters_iff others word).mpr value]
    exact registers reg
  · rw [unchanged.memory _ (Layout.outside represents.context mapped).2,
      represents.memory pointer mapped, sameMemory]

/-- Straight code that computes the written register. -/
theorem computed_follows
    (represents : Represents layout known machine state)
    (permits : env.PermitsEverything)
    (noUpdate : ∀ flag, flag ∉ inst.updateFlags)
    {code : List Inst}
    {temps : List Register}
    (computes : ComputesInto (mapRegType number type :: temps) code)
    (inside : ∀ temp ∈ temps, temp ∈ temporaries)
    {word : Word}
    (value : (applyAll env.origin state code).get (mapRegType number type) =
      (RegisterAccess.ofType size type).merge
        (state.get (mapRegType number type)) word)
    (write : machine.write layout.mapped inst (.reg size number type) word =
      some after) :
    ∃ final, (JumpTable.dispatch runtime env).Exits code state
        (.ended final) ∧
      Follows layout inst after state final := by
  have dispatched : (JumpTable.dispatch runtime env).PermitsEverything :=
    permits
  have subset : ∀ register ∈ mapRegType number type :: temps,
      register ∈ mapRegType number type :: temporaries := by
    intro register member
    rcases List.mem_cons.mp member with rfl | temporary
    · exact List.mem_cons_self
    · exact List.mem_cons_of_mem _ (inside register temporary)
  refine ⟨applyAll env.origin state code,
    Environment.exits_straight computes.straight (dispatched.permitsAll _ _),
    follows_of_register represents noUpdate ?_ value write⟩
  exact Unchanged.of_mem
    (fun register outside => computes.get _ _ fun member =>
      outside (subset register member))
    (computes.mem _ _)

end Register

/-! ## Moves between registers -/

/-- A low byte is not moved to itself. -/
def MovesApart (inst : Instruction) : Prop :=
  ∀ register, inst.getOperand 0 = .reg .byte register .gpl ->
    inst.getOperand 1 ≠ .reg .byte register .gpl

theorem mov_follows
    (kind : inst.instructionClass = .mov)
    (move : inst.RegisterMove)
    (movesApart : MovesApart inst)
    (noUpdate : ∀ flag, flag ∉ inst.updateFlags)
    (represents : Represents layout known machine state)
    (performs : perform layout.mapped inst machine = some after)
    (permits : env.PermitsEverything) :
    ∃ final, (JumpTable.dispatch runtime env).Exits (Mov.generate inst) state
        (.ended final) ∧
      Follows layout inst after state final := by
  simp only [perform, kind, Option.bind_eq_bind, Option.bind_eq_some_iff]
    at performs
  obtain ⟨value, read, write⟩ := performs
  obtain ⟨size, register, type, first⟩ := Operand.exists_reg move.destination
  obtain ⟨sourceSize, source, sourceType, second⟩ :=
    Operand.exists_reg move.source
  have valid := move.destinationValid
  have sourceValid := move.sourceValid
  have same := move.sameSize kind
  rw [first] at valid write
  rw [second] at sourceValid
  rw [destinationSize, first, second] at same
  change sourceSize = size at same
  subst same
  have kept : Mov.ByteKept inst state := fun register first second =>
    absurd second (movesApart register first)
  have moved := (Mov.generate_value_iff first second env.origin state valid
    sourceValid).mpr kept
  refine computed_follows represents permits noUpdate
    (Mov.generate_computesInto first second valid sourceValid) (by decide) ?_
    write
  rw [moved]
  refine (Mov.merge_source second state valid ?_ _).symm
  have bits := represents.operandBits read sourceSize
  rw [second] at bits
  exact bits.symm

/-- The destination of an extension has eight bytes, or is cleared behind four
bytes as the extension is. -/
def ExtendsWhole (inst : Instruction) : Prop :=
  inst.destinationSize = .qword ∨
    inst.destinationSize = .dword ∧ inst.instructionClass = .movzx

/-- An extended word fills a register of eight bytes, and one of four bytes if
it is extended with zeros. -/
theorem merge_extend
    {size sourceSize : OperandSize}
    {signed : Bool}
    (short : sourceSize ≠ .qword)
    (whole : size = .qword ∨ size = .dword ∧ signed = false)
    (bits : BitVec sourceSize.bits)
    (old : Word) :
    (RegisterAccess.ofSize size).merge old (extend signed bits 64) =
      extend signed bits 64 := by
  rcases whole with rfl | ⟨rfl, rfl⟩
  · rfl
  · have below : sourceSize.bits ≤ 32 := by
      cases sourceSize with
      | qword => exact absurd rfl short
      | _ => decide
    refine ((RegisterAccess.eq_merge_dword_iff _ _).mpr ?_).symm
    rw [@extract_extend _ 64 _ _ 32 32 below (by decide), if_neg (by simp)]

theorem ExtendsWhole.whole
    (extendsWhole : ExtendsWhole inst)
    {size : OperandSize}
    (destination : inst.destinationSize = size) :
    size = .qword ∨
      size = .dword ∧ (inst.instructionClass == .movsx) = false := by
  rw [← destination]
  rcases extendsWhole with long | ⟨half, movzx⟩
  · exact Or.inl long
  · exact Or.inr ⟨half, by rw [movzx]; rfl⟩

theorem extension_performs
    (extending : inst.instructionClass = .movzx ∨
      inst.instructionClass = .movsx)
    (performs : perform layout.mapped inst machine = some after) :
    ∃ value,
      machine.read layout.mapped inst (inst.getOperand 1) = some value ∧
        machine.write layout.mapped inst (inst.getOperand 0)
          (extend (inst.instructionClass == .movsx)
            (value.setWidth (inst.getOperand 1).size.bits) 64) =
          some after := by
  rcases extending with kind | kind <;>
    simpa only [perform, kind, Option.bind_eq_bind, Option.bind_eq_some_iff]
      using performs

theorem extension_follows
    (extending : inst.instructionClass = .movzx ∨
      inst.instructionClass = .movsx)
    (move : inst.RegisterMove)
    (whole : ExtendsWhole inst)
    (noUpdate : ∀ flag, flag ∉ inst.updateFlags)
    (represents : Represents layout known machine state)
    (performs : perform layout.mapped inst machine = some after)
    (permits : env.PermitsEverything)
    (symbols : HostSymbols)
    (entries : Nat) :
    ∃ code final, inst.generate symbols entries = some code ∧
      (JumpTable.dispatch runtime env).Exits code state (.ended final) ∧
      Follows layout inst after state final := by
  obtain ⟨value, read, write⟩ := extension_performs extending performs
  obtain ⟨code, generated, computes, computed⟩ :=
    generate_extends move extending symbols entries
  obtain ⟨size, register, type, first⟩ := Operand.exists_reg move.destination
  have valid := move.destinationValid
  have notMov : inst.instructionClass ≠ .mov := by
    rcases extending with kind | kind <;> simp [kind]
  obtain ⟨-, short, -⟩ := move.extended notMov
  have destination : inst.destinationSize = size := by
    rw [destinationSize, first]
    rfl
  have fills := whole.whole destination
  rw [first] at valid write
  obtain rfl : type = .gpl := by
    apply low_of_valid valid
    rcases fills with rfl | ⟨rfl, -⟩ <;> decide
  have place : inst.firstRegister = mapRegType register .gpl := by
    rw [firstRegister, first]
    rfl
  rw [place] at computes computed
  have bits := represents.operandBits read (inst.getOperand 1).size
  obtain ⟨final, exits, follows⟩ := computed_follows represents permits
    noUpdate computes (by simp) ((computed env.origin state).trans
      (merge_extend short fills _ (state.get _)).symm) (bits ▸ write)
  exact ⟨code, final, generated, exits, follows⟩

/-! ## Effective addresses -/

theorem lea_follows
    (kind : inst.instructionClass = .lea)
    {size sourceSize : OperandSize}
    (long : size ≠ .byte)
    {register : Fadec.Register}
    {base : Option Fadec.Register}
    (first : inst.getOperand 0 = .reg size register .gpl)
    (second : inst.getOperand 1 = .mem sourceSize base)
    (noUpdate : ∀ flag, flag ∉ inst.updateFlags)
    (represents : Represents layout known machine state)
    (performs : perform layout.mapped inst machine = some after)
    (permits : env.PermitsEverything) :
    ∃ final, (JumpTable.dispatch runtime env).Exits (Lea.generate inst) state
        (.ended final) ∧
      Follows layout inst after state final := by
  simp only [perform, kind, first, second] at performs
  have computes : ComputesInto [mapRegType register .gpl, .t0, .t1, .t2]
      (Lea.generate inst) := Lea.generate_computesInto first second long
  refine computed_follows represents permits noUpdate computes (by decide) ?_
    performs
  have value := Lea.generate_value first second env.origin state long
  rw [represents.operandAddress] at value
  exact value

end Guest
end Oxtra

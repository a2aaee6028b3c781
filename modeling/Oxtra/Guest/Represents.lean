import Oxtra.Guest.Machine
import Oxtra.Instructions.PrunedRuns

/-!
# The host represents the machine of the guest

A state of the host has the registers of the guest in some of its own, the
mapped memory in place and the bases of the segments in the context.  The
flags are what the lazy information evaluates to; only those that are known
have to be right.
-/

namespace Oxtra
namespace Guest

open RiscV
open Encoding
open Helper
open FlagInfo
open Instruction
open Fadec (Operand OperandSize)

/-! ## The layout of the host -/

/-- What the host relies on: the memory of the guest is apart from the context,
and the jump table is aligned. -/
structure Layout where
  mapped : AddressSpace
  context : Word
  table : Word
  tableAligned : table.toNat % 4 = 0
  apart : ∀ pointer, mapped pointer = true ->
    ExecutionContext.size ≤ (pointer - context).toNat

/-- Registers that the code of an instruction may change beside those of the
guest. -/
def temporaries : List Register :=
  [.ra, .t0, .t1, .t2, .t3, .t4, .t5, .t6]

/-- Some code keeps what belongs to the host, apart from temporaries, the
lazy information and the place for saved registers. -/
structure KeepsHost (layout : Layout) (before after : State) : Prop where
  registers : ∀ register, isGuest register = false ->
    register ∉ temporaries -> after.get register = before.get register
  memory : ∀ pointer, layout.mapped pointer = false ->
    savedBytes ≤ (pointer - before.get contextAddress).toNat ->
      FlagInfo.Outside before pointer ->
        after.mem pointer = before.mem pointer

namespace KeepsHost

variable {layout : Layout} {before middle after : State}

theorem refl (layout : Layout) (state : State) : KeepsHost layout state state :=
  ⟨fun _ _ _ => rfl, fun _ _ _ _ => rfl⟩

theorem context (keeps : KeepsHost layout before after) :
    after.get contextAddress = before.get contextAddress :=
  keeps.registers _ (by decide) (by decide)

theorem trans
    (first : KeepsHost layout before middle)
    (second : KeepsHost layout middle after) :
    KeepsHost layout before after where
  registers register reserved kept :=
    (second.registers register reserved kept).trans
      (first.registers register reserved kept)
  memory pointer unmapped saved outside := by
    rw [second.memory pointer unmapped, first.memory pointer unmapped saved
      outside]
    · rw [first.context]
      exact saved
    · rw [FlagInfo.Outside, first.context]
      exact outside

/-- Code with updates of flags keeps what belongs to the host. -/
theorem of_keepsBut
    {temps : List Register}
    (keeps : KeepsBut temps before after)
    (inside : ∀ register ∈ temps,
      isGuest register = true ∨ register ∈ temporaries) :
    KeepsHost layout before after where
  registers register reserved kept := by
    apply keeps.registers
    intro member
    rcases inside register member with guest | temporary
    · rw [guest] at reserved
      cases reserved
    · exact kept temporary
  memory pointer _ _ outside := keeps.memory pointer outside

/-- Code that calls routines keeps what belongs to the host. -/
theorem of_unchanged
    {scratch : List Register}
    (unchanged : Unchanged scratch before after)
    (inside : ∀ register ∈ scratch,
      isGuest register = true ∨ register ∈ temporaries) :
    KeepsHost layout before after where
  registers register reserved kept := by
    apply unchanged.registers
    intro member
    rcases inside register member with guest | temporary
    · rw [guest] at reserved
      cases reserved
    · exact kept temporary
  memory pointer _ saved _ := unchanged.memory pointer saved

end KeepsHost

/-! ## Representation -/

/-- A state of the host represents a machine.  Every flag has some value that
the lazy information evaluates to, which is right if the flag is known. -/
structure Represents
    (layout : Layout)
    (known : Flag -> Prop)
    (machine : Machine)
    (state : State) : Prop where
  context : state.get contextAddress = layout.context
  table : state.get jumpTableAddress = layout.table
  registers : ∀ reg, state.get (mapReg reg) = machine.registers reg
  lazyFlags : ∃ values : Flag -> Bool,
    (∀ flag, EvaluatedFlag (fields state) flag (values flag)) ∧
      ∀ flag, known flag -> values flag = machine.flags flag
  fsBase : state.mem.load
    (layout.context + signedImm ExecutionContext.fsOffset) 8 = machine.fsBase
  gsBase : state.mem.load
    (layout.context + signedImm ExecutionContext.gsOffset) 8 = machine.gsBase
  memory : ∀ pointer, layout.mapped pointer = true ->
    state.mem pointer = machine.memory pointer

section Read

variable {layout : Layout} {known : Flag -> Prop} {machine : Machine}
variable {state : State} {inst : Instruction}

/-- Fewer flags may be known. -/
theorem Represents.mono
    {fewer : Flag -> Prop}
    (represents : Represents layout known machine state)
    (imp : ∀ flag, fewer flag -> known flag) :
    Represents layout fewer machine state where
  context := represents.context
  table := represents.table
  registers := represents.registers
  lazyFlags := by
    obtain ⟨values, evaluated, right⟩ := represents.lazyFlags
    exact ⟨values, evaluated, fun flag isKnown => right flag (imp flag isKnown)⟩
  fsBase := represents.fsBase
  gsBase := represents.gsBase
  memory := represents.memory

theorem Represents.aligned
    (represents : Represents layout known machine state) :
    TableAligned state := by
  rw [TableAligned, represents.table]
  exact layout.tableAligned

/-- What a mapped address is apart from. -/
theorem Layout.outside
    (context : state.get contextAddress = layout.context)
    {pointer : Word}
    (mapped : layout.mapped pointer = true) :
    FlagInfo.Outside state pointer ∧
      savedBytes ≤ (pointer - state.get contextAddress).toNat := by
  have behind := layout.apart pointer mapped
  rw [FlagInfo.Outside, context]
  simp only [ExecutionContext.size, Field.limit, savedBytes] at *
  omega

/-- A register of an address. -/
theorem Represents.registerValue
    (represents : Represents layout known machine state)
    (register : Option Fadec.Register) :
    Instruction.registerValue state register = machine.register register := by
  cases register with
  | none => rfl
  | some register => exact represents.registers register

theorem Represents.operandAddress
    (represents : Represents layout known machine state)
    (inst : Instruction)
    (op : Operand) :
    inst.operandAddress op state = machine.offset inst op := by
  rw [Instruction.operandAddress, linearAddress, scaledIndex,
    represents.registerValue, represents.registerValue]
  rfl

theorem Represents.segmentBase
    (represents : Represents layout known machine state)
    (inst : Instruction) :
    inst.segmentBase state = machine.segmentBase inst := by
  have fs : ExecutionContext.fsOffset ≠ 0 := by decide
  have gs : ExecutionContext.gsOffset ≠ 0 := by decide
  cases segment : inst.segment <;>
    simp only [Instruction.segmentBase, segmentOffset, Machine.segmentBase,
      segment, if_true, if_neg fs, if_neg gs, represents.context,
      represents.fsBase, represents.gsBase]

theorem Represents.guestAddress
    (represents : Represents layout known machine state)
    (inst : Instruction)
    (op : Operand) :
    inst.guestAddress op state = machine.address inst op := by
  rw [Instruction.guestAddress, represents.operandAddress,
    represents.segmentBase, Machine.address]

/-- Mapped memory is loaded from the host. -/
theorem Represents.load
    (represents : Represents layout known machine state)
    {address value : Word}
    {bytes : Nat}
    (loaded : machine.load layout.mapped address bytes = some value) :
    state.mem.load address bytes = value := by
  unfold Machine.load at loaded
  split at loaded
  · rename_i covered
    rw [← Option.some.inj loaded]
    apply Memory.load_congr
    intro index inside
    exact represents.memory _ (AddressSpace.covers_iff.mp covered index inside)
  · cases loaded

/-- The value of an operand is the same on the host. -/
theorem Represents.operandValue
    (represents : Represents layout known machine state)
    {op : Operand}
    {value : Word}
    (read : machine.read layout.mapped inst op = some value) :
    inst.operandValue op state = value := by
  cases op with
  | none => cases read
  | reg size register type =>
      rw [Instruction.operandValue, ← mapReg_fullRegister,
        represents.registers, Option.some.inj read]
  | imm size => exact Option.some.inj read
  | mem size base =>
      rw [Instruction.operandValue, represents.guestAddress]
      exact represents.load read

theorem Represents.operandBits
    (represents : Represents layout known machine state)
    {op : Operand}
    {value : Word}
    (read : machine.read layout.mapped inst op = some value)
    (size : OperandSize) :
    inst.operandBits op size state = value.setWidth size.bits := by
  rw [Instruction.operandBits, represents.operandValue read]

/-- An operand in a register is written there. -/
theorem Represents.writtenRegisters
    (represents : Represents layout known machine state)
    {op : Operand}
    {value : Word}
    {written : Machine}
    (isReg : op.isReg = true)
    (write : machine.write layout.mapped inst op value = some written) :
    (∀ reg, Instruction.writtenRegisters op value state reg =
        written.registers reg) ∧
      written = { machine with registers := written.registers } := by
  cases op with
  | reg size register type =>
      obtain rfl := Option.some.inj write
      refine ⟨fun reg => ?_, rfl⟩
      simp only [Instruction.writtenRegisters, registerAccess,
        Machine.setRegister, ← mapReg_fullRegister, mapReg_inj,
        represents.registers]
      by_cases same : reg = fullRegister register type
      · rw [if_pos same, same, Function.update_self]
      · rw [if_neg same, Function.update_of_ne same]
  | _ => cases isReg

end Read

/-! ## Steps -/

/-- The code of an instruction does on the host what is done on the machine.
It updates the flags in the set of the instruction and keeps what is stored
about the others. -/
structure Follows
    (layout : Layout)
    (inst : Instruction)
    (after : Machine)
    (state final : State) : Prop where
  registers : ∀ reg, final.get (mapReg reg) = after.registers reg
  memory : ∀ pointer, layout.mapped pointer = true ->
    final.mem pointer = after.memory pointer
  updated : ∀ flag ∈ inst.updateFlags,
    EvaluatedFlag (fields final) flag (after.flags flag)
  kept : ∀ field : Field, field.flag ∉ inst.updateFlags ->
    fields final field = fields state field
  host : KeepsHost layout state final

/-- The flags that are known behind an instruction: those that it updates, and
those that were known and that it does not change. -/
def knownBehind
    (inst : Instruction)
    (known : Flag -> Prop)
    (flag : Flag) : Prop :=
  flag ∈ inst.updateFlags ∨
    known flag ∧ flag ∉ inst.instructionClass.declaredUpdate

section Step

variable {layout : Layout} {known : Flag -> Prop} {machine after : Machine}
variable {state final : State} {inst : Instruction}

/-- The bytes of the context behind the saved registers. -/
def Layout.InContext (layout : Layout) (pointer : Word) : Prop :=
  savedBytes ≤ (pointer - layout.context).toNat ∧
    (pointer - layout.context).toNat < ExecutionContext.size

/-- The bytes of a place in the context. -/
theorem Layout.inContext
    (layout : Layout)
    {offset index : Nat}
    (low : savedBytes ≤ offset)
    (high : offset + index < ExecutionContext.size) :
    layout.InContext
      (layout.context + BitVec.ofNat 64 offset + BitVec.ofNat 64 index) := by
  rw [ExecutionContext.size] at high
  rw [Layout.InContext, add_assoc, add_sub_cancel_left, BitVec.toNat_add,
    BitVec.toNat_ofNat, BitVec.toNat_ofNat, ExecutionContext.size]
  omega

/-- The same bytes of the context hold the same lazy information. -/
theorem Layout.fields_eq
    (context : state.get contextAddress = layout.context)
    (sameContext : final.get contextAddress = layout.context)
    (bytes : ∀ pointer, layout.InContext pointer ->
      final.mem pointer = state.mem pointer) :
    fields final = fields state := by
  funext field
  obtain ⟨low, high⟩ := field.offset_lt
  have place : ∀ other : State, other.get contextAddress = layout.context ->
      field.address other =
        layout.context + BitVec.ofNat 64 field.offset.toNat := by
    intro other same
    rw [Field.address, same, BitVec.ofNat_toNat]
  change field.read final = field.read state
  rw [Field.read, Field.read, place final sameContext, place state context]
  apply Memory.load_congr
  intro index inside
  apply bytes
  rw [Field.limit] at high
  exact layout.inContext (by rw [savedBytes]; omega)
    (by rw [ExecutionContext.size]; omega)

/-- The same bytes behind the lazy information hold the same bases of the
segments. -/
theorem Layout.segment_load
    (bytes : ∀ pointer, layout.InContext pointer ->
      Field.limit ≤ (pointer - layout.context).toNat ->
        final.mem pointer = state.mem pointer)
    {offset : BitVec 16}
    (segment : offset = ExecutionContext.fsOffset ∨
      offset = ExecutionContext.gsOffset) :
    final.mem.load (layout.context + signedImm offset) 8 =
      state.mem.load (layout.context + signedImm offset) 8 := by
  have place : signedImm offset = BitVec.ofNat 64 offset.toNat ∧
      0x248 ≤ offset.toNat ∧ offset.toNat ≤ 0x250 := by
    rcases segment with rfl | rfl <;> decide
  rw [place.1]
  apply Memory.load_congr
  intro index inside
  apply bytes
  · exact layout.inContext (by rw [savedBytes]; omega)
      (by rw [ExecutionContext.size]; omega)
  · rw [add_assoc, add_sub_cancel_left, BitVec.toNat_add, BitVec.toNat_ofNat,
      BitVec.toNat_ofNat, Field.limit]
    omega

/-- What is represented is in some registers, the mapped memory and the
context. -/
theorem Represents.of_same
    (represents : Represents layout known machine state)
    (context : final.get contextAddress = state.get contextAddress)
    (table : final.get jumpTableAddress = state.get jumpTableAddress)
    (registers : ∀ reg, final.get (mapReg reg) = state.get (mapReg reg))
    (mapped : ∀ pointer, layout.mapped pointer = true ->
      final.mem pointer = state.mem pointer)
    (bytes : ∀ pointer, layout.InContext pointer ->
      final.mem pointer = state.mem pointer) :
    Represents layout known machine final := by
  have sameContext := context.trans represents.context
  refine ⟨sameContext, table.trans represents.table,
    fun reg => (registers reg).trans (represents.registers reg), ?_, ?_, ?_,
    fun pointer inside =>
      (mapped pointer inside).trans (represents.memory pointer inside)⟩
  · rw [Layout.fields_eq represents.context sameContext bytes]
    exact represents.lazyFlags
  · rw [Layout.segment_load (fun pointer inside _ => bytes pointer inside)
      (Or.inl rfl), represents.fsBase]
  · rw [Layout.segment_load (fun pointer inside _ => bytes pointer inside)
      (Or.inr rfl), represents.gsBase]

/-- The part of the context behind the lazy information is kept. -/
theorem KeepsHost.bytes
    (keeps : KeepsHost layout state final)
    (context : state.get contextAddress = layout.context)
    (pointer : Word)
    (inContext : layout.InContext pointer)
    (behind : Field.limit ≤ (pointer - layout.context).toNat) :
    final.mem pointer = state.mem pointer := by
  apply keeps.memory
  · by_contra mapped
    have apart := layout.apart _ (Bool.eq_true_of_not_eq_false mapped)
    exact absurd inContext.2 (by omega)
  · rw [context]
    exact inContext.1
  · rw [FlagInfo.Outside, context]
    exact fun inside => absurd inside.2 (by omega)

/-- Behind the code of an instruction the host represents the machine behind
its step. -/
theorem Represents.follows
    (represents : Represents layout known machine state)
    (step : StepKeeps inst machine after)
    (follows : Follows layout inst after state final) :
    Represents layout (knownBehind inst known) after final where
  context := follows.host.context.trans represents.context
  table := (follows.host.registers _ (by decide) (by decide)).trans
    represents.table
  registers := follows.registers
  lazyFlags := by
    obtain ⟨values, evaluated, right⟩ := represents.lazyFlags
    refine ⟨fun flag =>
      if flag ∈ inst.updateFlags then after.flags flag else values flag,
      fun flag => ?_, fun flag isKnown => ?_⟩
    · by_cases member : flag ∈ inst.updateFlags
      · simp only [if_pos member]
        exact follows.updated flag member
      · simp only [if_neg member]
        refine (evaluated flag).congr ?_
        rintro field rfl
        exact follows.kept field member
    · by_cases member : flag ∈ inst.updateFlags
      · simp only [if_pos member]
      · obtain ⟨before, unchanged⟩ := isKnown.resolve_left member
        simp only [if_neg member]
        rw [right flag before, step.flags flag unchanged]
  fsBase := by
    rw [Layout.segment_load (follows.host.bytes represents.context)
      (Or.inl rfl), represents.fsBase, step.fsBase]
  gsBase := by
    rw [Layout.segment_load (follows.host.bytes represents.context)
      (Or.inr rfl), represents.gsBase, step.gsBase]
  memory := follows.memory

/-- Code that changes temporaries and saved registers only keeps what is
represented. -/
theorem Represents.of_unchanged
    (represents : Represents layout known machine state)
    {scratch : List Register}
    (unchanged : Unchanged scratch state final)
    (inside : ∀ register ∈ scratch, register ∈ temporaries) :
    Represents layout known machine final := by
  have others : ∀ register, register ∉ temporaries ->
      final.get register = state.get register :=
    fun register free => unchanged.registers register fun member =>
      free (inside register member)
  have reserved : ∀ temporary ∈ temporaries, isGuest temporary = false := by
    decide
  refine represents.of_same (others _ (by decide)) (others _ (by decide))
    (fun reg => others _ fun member => ?_)
    (fun pointer mapped => unchanged.memory _
      (Layout.outside represents.context mapped).2)
    (fun pointer inContext => unchanged.memory _ ?_)
  · have guest := isGuest_mapReg reg
    rw [reserved _ member] at guest
    cases guest
  · rw [represents.context]
    exact inContext.1

/-- Code that computes temporaries keeps what is represented. -/
theorem Represents.computed
    (represents : Represents layout known machine state)
    {temps : List Register}
    {code : List Inst}
    (computes : ComputesInto temps code)
    (inside : ∀ temp ∈ temps, temp ∈ temporaries)
    (pc : Word) :
    Represents layout known machine (applyAll pc state code) :=
  represents.of_unchanged
    (Unchanged.of_mem (fun _ => computes.get pc state) (computes.mem pc state))
    inside

end Step

end Guest
end Oxtra

import Oxtra.CodeGenerator.FlagElimination
import Oxtra.CodeGenerator.Links
import Oxtra.Guest.Forms

/-!
# Blocks of the guest

The code of a block, entered at any of its instructions, goes through the
instructions as the machine does until it leaves for another block.  Behind
each instruction the flags are known that the guest may still look at; the
updates of the others may have been eliminated.
-/

namespace Oxtra
namespace Guest

open RiscV
open Encoding
open Helper
open FlagInfo
open Instruction
open CodeGenerator

/-! ## Code of a block -/

/-- The code of an instruction at a position of the host.  The slot of a direct
jump may have been linked to code that serves the address of the jump. -/
inductive Emitted
    (generate : Instruction -> Option (List Inst))
    (serves : Word -> Word -> Prop)
    (position : Word)
    (inst : Instruction) : List Inst -> Prop where
  | generated {code : List Inst}
      (generated : generate inst = some code) :
      Emitted generate serves position inst code
  | conditional {condition : Condition} {code : List Inst}
      (kind : inst.instructionClass = .jcc condition)
      (slot : Slot serves
        (position + BitVec.ofNat 64 (4 * (Jcc.front condition).length))
        inst.immediate code) :
      Emitted generate serves position inst (Jcc.execute code condition)
  | jump {code : List Inst}
      (kind : inst.instructionClass = .jmp)
      (slot : Slot serves position inst.immediate code) :
      Emitted generate serves position inst code

/-- The codes of the instructions of a block from one of them to the last.  A
block that ends at the next stored one goes on to code that serves its
address. -/
inductive TranslatedFrom
    (decoder : Fadec.Decoder)
    (elf : Elf)
    (generate : Instruction -> Option (List Inst))
    (serves : Word -> Word -> Prop) :
    Word -> Word -> List Instruction -> List (List Inst) -> Prop where
  | ends {position addr : Word} {inst : Instruction} {code : List Inst}
      (fetched : instructionAt decoder elf addr = some (declared inst))
      (emitted : Emitted generate serves position inst code)
      (endOfBlock : inst.endOfBlock = true) :
      TranslatedFrom decoder elf generate serves position addr [inst] [code]
  | falls {position addr target : Word} {inst : Instruction}
      {code : List Inst}
      (fetched : instructionAt decoder elf addr = some (declared inst))
      (emitted : Emitted generate serves position inst code)
      (continues : inst.endOfBlock = false)
      (served : serves target (inst.following addr)) :
      TranslatedFrom decoder elf generate serves position addr [inst]
        [code ++ farJump target]
  | cons {position addr : Word} {inst : Instruction} {code : List Inst}
      {rest : List Instruction} {further : List (List Inst)}
      (fetched : instructionAt decoder elf addr = some (declared inst))
      (emitted : Emitted generate serves position inst code)
      (continues : inst.endOfBlock = false)
      (behind : TranslatedFrom decoder elf generate serves
        (position + BitVec.ofNat 64 (4 * code.length)) (inst.following addr)
        rest further) :
      TranslatedFrom decoder elf generate serves position addr (inst :: rest)
        (code :: further)

/-- Code of some instructions that has as many host instructions for each of
them as some other code. -/
def Translates
    (decoder : Fadec.Decoder)
    (elf : Elf)
    (generate : Instruction -> Option (List Inst))
    (serves : Word -> Word -> Prop)
    (position addr : Word)
    (instructions : List Instruction)
    (codes : List (List Inst))
    (code : List Inst) : Prop :=
  ∃ same, same.flatten = code ∧ same.map List.length = codes.map List.length ∧
    TranslatedFrom decoder elf generate serves position addr instructions same

/-- The function generates the code of the instruction classes, with some number
of entries in the call table. -/
def Generates
    (generate : Instruction -> Option (List Inst))
    (symbols : HostSymbols) : Prop :=
  ∀ inst, ∃ entries, generate inst = inst.generate symbols entries

/-- The address of an entry of the jump table. -/
def Layout.entry (layout : Layout) (entry : JumpTable.Entry) : Word :=
  layout.table + entry.offset.setWidth 64

/-- Host code that is not reached through the jump table. -/
structure Layout.StoredCode
    (layout : Layout)
    (target : Word) : Prop where
  aligned : target.toNat % 4 = 0
  outside : 4 * JumpTable.tableAddress.length ≤ (target - layout.table).toNat

theorem Layout.StoredCode.ne_entry
    {layout : Layout}
    {target : Word}
    (stored : layout.StoredCode target)
    (entry : JumpTable.Entry) : target ≠ layout.entry entry := by
  rintro rfl
  have outside := stored.outside
  obtain ⟨inTable, -⟩ :=
    List.getElem?_eq_some_iff.mp (JumpTable.tableAddress_number entry)
  rw [Layout.entry, add_sub_cancel_left, BitVec.toNat_setWidth,
    entry.offset_toNat] at outside
  omega

/-! ## Leaving a block -/

/-- The code calls `reroute_static` for an address in front of some other, and
may be linked there to code that serves the address. -/
def Links
    (env : Environment)
    (serves : Word -> Word -> Prop)
    (emits : List Inst -> Prop)
    (code : List Inst)
    (ptr back : Word) : Prop :=
  ∃ front behind, code = front ++ appendEob ptr ++ behind ∧
    back = env.address (front.length + batchSize) ∧
    ∀ target, serves target ptr ->
      ¬ OutOfReach (target - env.address front.length).toInt ->
        emits (front ++ linkSlot (env.address front.length) ptr target ++
          behind)

/-- Some code is left for the code of an address: by a call of
`reroute_static`, or for code that serves the address. -/
inductive LeavesFor
    (env : Environment)
    (layout : Layout)
    (serves : Word -> Word -> Prop)
    (emits : List Inst -> Prop)
    (code : List Inst)
    (state : State)
    (pc : Word)
    (after : State) : Prop where
  | reroutes
      (exits : env.Exits code state
        (.left (layout.entry .rerouteStatic) after))
      (reached : after.get addressDestination = pc)
      (links : Links env serves emits code pc (after.get .ra))
  | enters {target : Word}
      (exits : env.Exits code state (.left target after))
      (served : serves target pc)

section Leaving

variable {env : Environment} {layout : Layout}
variable {serves : Word -> Word -> Prop} {emits other : List Inst -> Prop}
variable {first code : List Inst} {state between after : State} {pc : Word}

theorem LeavesFor.imp
    (leaves : LeavesFor env layout serves other code state pc after)
    (implies : ∀ {code}, other code -> emits code) :
    LeavesFor env layout serves emits code state pc after := by
  cases leaves with
  | enters exits served => exact .enters exits served
  | reroutes exits reached links =>
      obtain ⟨front, behind, split, back, linked⟩ := links
      exact .reroutes exits reached ⟨front, behind, split, back,
        fun target served inReach => implies (linked target served inReach)⟩

/-- The code in front runs to its end. -/
theorem LeavesFor.behind
    (leaves : LeavesFor (env.shift first.length) layout serves other code
      between pc after)
    (ends : env.Exits first state (.ended between))
    (joins : ∀ {code}, other code -> emits (first ++ code)) :
    LeavesFor env layout serves emits (first ++ code) state pc after := by
  cases leaves with
  | enters exits served => exact .enters (ends.append exits (by simp)) served
  | reroutes exits reached links =>
      refine .reroutes (ends.append exits (by simp)) reached ?_
      obtain ⟨front, behind, rfl, back, linked⟩ := links
      refine ⟨first ++ front, behind, by simp, ?_, ?_⟩
      · rw [back, Environment.shift_address, List.length_append, Nat.add_assoc]
      · intro target served inReach
        rw [List.length_append, ← Environment.shift_address] at inReach ⊢
        rw [List.append_assoc, List.append_assoc, ← List.append_assoc front]
        exact joins (linked target served inReach)

/-- The code behind is not reached. -/
theorem LeavesFor.append
    {further : List Inst}
    (leaves : LeavesFor env layout serves other code state pc after)
    (joins : ∀ {same}, same.length = code.length -> other same ->
      emits (same ++ further)) :
    LeavesFor env layout serves emits (code ++ further) state pc after := by
  cases leaves with
  | enters exits served =>
      exact .enters (exits.append_left _ (by simp) (by simp)) served
  | reroutes exits reached links =>
      refine .reroutes (exits.append_left _ (by simp) (by simp)) reached ?_
      obtain ⟨front, behind, rfl, back, linked⟩ := links
      refine ⟨front, behind ++ further, by simp, back, ?_⟩
      intro target served inReach
      rw [← List.append_assoc]
      exact joins (by simp) (linked target served inReach)

end Leaving

/-! ## Supported programs -/

/-- The instructions that are supported. -/
inductive Supported (inst : Instruction) : Prop where
  | plain (form : Form inst)
  | conditional (condition : Condition)
      (kind : inst.instructionClass = .jcc condition)
  | jump
      (kind : inst.instructionClass = .jmp)
      (direct : (inst.getOperand 0).isImm = true)

/-- The machine goes on with a supported instruction. -/
def Proceeds
    (decoder : Fadec.Decoder)
    (elf : Elf)
    (mapped : AddressSpace)
    (configuration : Configuration) : Prop :=
  ∃ inst, instructionAt decoder elf configuration.pc = some inst ∧
    Supported inst ∧
      (step decoder elf mapped configuration).isSome = true

section Step

variable {decoder : Fadec.Decoder} {elf : Elf} {mapped : AddressSpace}
variable {addr : Word} {inst : Instruction} {machine after : Machine}

/-- Instructions without branches stay in their block. -/
theorem Form.straight (form : Form inst) :
    inst.instructionClass.controlFlowDimension = 0 ∧
      inst.instructionClass.endsBlock = false := by
  cases form with
  | binary _ kind | unary _ kind | comparison _ kind =>
      rw [kind]
      exact ⟨rfl, rfl⟩
  | clearCarry kind | setCarry kind | noOperation kind | move kind =>
      rw [kind]
      exact ⟨rfl, rfl⟩
  | loadAddress _ _ _ _ kind | conditionalSet _ _ kind =>
      rw [kind]
      exact ⟨rfl, rfl⟩
  | extension extending =>
      rcases extending with kind | kind <;> rw [kind] <;> exact ⟨rfl, rfl⟩
  | conditionalMove condition form =>
      rw [form.conditional]
      exact ⟨rfl, rfl⟩
  | load _ _ _ _ _ form =>
      rcases form.moves with ⟨kind, -⟩ | ⟨kind, -⟩ | ⟨kind, -⟩ <;> rw [kind] <;>
        exact ⟨rfl, rfl⟩
  | store _ _ form | immediate _ _ form | pop _ form =>
      rw [form.kind]
      exact ⟨rfl, rfl⟩
  | push form =>
      rw [form.kind]
      exact ⟨rfl, rfl⟩

/-- A step of an instruction without branches. -/
theorem step_straight
    (fetched : instructionAt decoder elf addr = some inst)
    (straight : inst.instructionClass.controlFlowDimension = 0) :
    step decoder elf mapped ⟨addr, machine⟩ =
      (perform mapped inst machine).map fun after =>
        ⟨inst.following addr, after⟩ := by
  simp only [step, fetched, Option.bind_eq_bind, Option.bind_some]
  cases kind : inst.instructionClass <;> rw [kind] at straight <;>
    first | rfl | cases straight

theorem step_conditional
    {condition : Condition}
    (fetched : instructionAt decoder elf addr = some inst)
    (kind : inst.instructionClass = .jcc condition) :
    step decoder elf mapped ⟨addr, machine⟩ =
      some ⟨if condition.holds machine.flags then inst.immediate
        else inst.following addr, machine⟩ := by
  simp only [step, fetched, Option.bind_eq_bind, Option.bind_some, kind]
  split <;> rfl

theorem step_jump
    (fetched : instructionAt decoder elf addr = some inst)
    (kind : inst.instructionClass = .jmp)
    (direct : (inst.getOperand 0).isImm = true) :
    step decoder elf mapped ⟨addr, machine⟩ =
      some ⟨inst.immediate, machine⟩ := by
  simp only [step, fetched, Option.bind_eq_bind, Option.bind_some, kind,
    if_pos direct]

end Step

/-! ## Slots and branches -/

section Leave

variable {layout : Layout} {serves : Word -> Word -> Prop}
variable {state middle after : State} {pc : Word} {code : List Inst}
variable {runtime : JumpTable.Runtime} {env : Environment}
variable (permits : env.PermitsEverything)
variable (noReturn : ∀ state, runtime .rerouteStatic state = none)
variable (stored : ∀ target pc, serves target pc -> layout.StoredCode target)

/-- What is in a hole is left as it is by itself. -/
theorem LeavesFor.inside
    {hole : Hole}
    {other emits : List Inst -> Prop}
    (leaves : LeavesFor (env.shift hole.front.length) layout serves other code
      middle pc after)
    (enters : hole.Enters env 0 state middle)
    (full : code.length = hole.size)
    (joins : ∀ {same}, other same -> emits (hole.fill same)) :
    LeavesFor env layout serves emits (hole.fill code) state pc after := by
  cases leaves with
  | enters exits served =>
      exact .enters (enters.exits full exits (by simp) (by simp)) served
  | reroutes exits reached links =>
      refine .reroutes (enters.exits full exits (by simp) (by simp)) reached ?_
      obtain ⟨front, behind, rfl, back, linked⟩ := links
      refine ⟨hole.front ++ front, behind ++ hole.back, by simp [Hole.fill],
        ?_, ?_⟩
      · rw [back, Environment.shift_address, List.length_append, Nat.add_assoc]
      · intro target served inReach
        rw [List.length_append, ← Environment.shift_address] at inReach ⊢
        have joined := joins (linked target served inReach)
        simp only [Hole.fill, List.append_assoc] at joined ⊢
        exact joined

include permits noReturn stored

/-- The slot of a direct jump. -/
theorem slot_leaves
    (slot : Slot serves env.origin pc code)
    (table : state.get jumpTableAddress = layout.table) :
    ∃ after, Unchanged [.ra, addressDestination] state after ∧
      LeavesFor (JumpTable.dispatch runtime env) layout serves
        (Slot serves env.origin pc) code state pc after := by
  have tableAligned := layout.tableAligned
  cases slot with
  | calls =>
      have even : (state.get jumpTableAddress).toNat % 2 = 0 := by
        rw [table]
        omega
      have exits := @appendEob_exits runtime env state permits noReturn pc
      rw [rerouteTarget_of_even even, JumpTable.Entry.address, table] at exits
      refine ⟨(state.set addressDestination pc).set .ra
        (env.address batchSize), Unchanged.of_mem (fun register other => ?_)
        rfl, .reroutes exits ?_ ⟨[], [], by simp, ?_, ?_⟩⟩
      · simp only [List.mem_cons, List.not_mem_nil, or_false, not_or] at other
        rw [State.set_get_of_ne _ _ other.1, State.set_get_of_ne _ _ other.2]
      · rw [State.set_get_of_ne _ _ (by decide),
          State.set_get_self _ _ (by decide)]
      · rw [State.set_get_self _ _ (by decide), List.length_nil, Nat.zero_add]
        rfl
      · intro target served inReach
        have start : (JumpTable.dispatch runtime env).address 0 =
            env.origin := by
          rw [Environment.address, Nat.mul_zero]
          exact BitVec.add_zero _
        rw [List.length_nil, start] at inReach ⊢
        rw [List.nil_append, List.append_nil]
        exact .linked served inReach
  | @linked target served inReach =>
      have storedCode := stored target pc served
      obtain ⟨after, exits, unchanged⟩ := @jumpCode_leaves runtime env state
        permits target storedCode.aligned
        (by rw [table]; exact storedCode.outside) inReach
        ((appendEob pc).drop (jumpCode env.origin target).length)
      exact ⟨after, unchanged.mono (by simp), .enters exits served⟩

/-- The code of a conditional jump whose flags are known. -/
theorem conditional_leaves
    {known : Flag -> Prop}
    {machine : Machine}
    (represents : Represents layout known machine state)
    {condition : Condition}
    (slot : Slot serves (env.address (Jcc.front condition).length) pc code)
    (required : ∀ flag ∈ condition.require, known flag) :
    ∃ after, Unchanged temporaries state after ∧
      if condition.holds machine.flags then
        LeavesFor (JumpTable.dispatch runtime env) layout serves
          (fun emitted => ∃ slot, Jcc.execute slot condition = emitted ∧
            Slot serves (env.address (Jcc.front condition).length) pc slot)
          (Jcc.execute code condition) state pc after
      else
        (JumpTable.dispatch runtime env).Exits (Jcc.execute code condition)
          state (.ended after) := by
  have full := slot.length_eq
  obtain ⟨values, lazyFlags, holds⟩ :=
    represents.conditionHolds runtime required rfl
  obtain ⟨middle, unchanged, outcome⟩ := Jcc.hole_entered permits noReturn
    represents.aligned lazyFlags condition
  have kept := unchanged.mono jumpScratch_temporaries
  rw [holds] at outcome
  cases met : condition.holds machine.flags with
  | false =>
      rw [met, if_neg Bool.false_ne_true] at outcome
      refine ⟨middle, kept, ?_⟩
      rw [if_neg Bool.false_ne_true]
      exact outcome code full
  | true =>
      rw [met, if_pos rfl] at outcome
      have table : middle.get jumpTableAddress = layout.table :=
        (kept.registers _ (by decide)).trans represents.table
      obtain ⟨after, leftUnchanged, leaves⟩ := @slot_leaves layout serves middle
        pc code runtime (env.shift (Jcc.front condition).length) permits
        noReturn stored slot table
      refine ⟨after, kept.trans (by decide) (leftUnchanged.mono (by decide)),
        ?_⟩
      rw [if_pos rfl, Jcc.execute_eq_fill full]
      have inSlot : LeavesFor ((JumpTable.dispatch runtime env).shift
          (Jcc.hole condition).front.length) layout serves _ code middle pc
            after := leaves
      refine inSlot.inside outcome full fun {same} isSlot => ?_
      exact ⟨same, Jcc.execute_eq_fill isSlot.length_eq condition, isSlot⟩

end Leave

/-! ## Flags that the guest may look at -/

section Exposed

variable {decoder : Fadec.Decoder} {elf : Elf} {addr : Word}
variable {inst : Instruction}

/-- The flags that the guest may look at behind an address, before it updates
them. -/
def exposedAt (decoder : Fadec.Decoder) (elf : Elf) (addr : Word) (flag : Flag) :
    Prop :=
  (controlFlow decoder elf).Exposed flag addr

/-- An instruction updates what it declares and the guest may look at. -/
def UpdatesExposed
    (decoder : Fadec.Decoder)
    (elf : Elf)
    (addr : Word)
    (inst : Instruction) : Prop :=
  ∀ successor flag, inst.Successor (inst.following addr) successor ->
    exposedAt decoder elf successor flag ->
      flag ∈ inst.instructionClass.declaredUpdate -> flag ∈ inst.updateFlags

/-- The instructions of a block that keeps the needed updates. -/
theorem updatesExposed_of_keeps
    {instructions : List Instruction}
    (keeps : KeepsNeededUpdates decoder elf instructions)
    (member : inst ∈ instructions)
    (fetched : instructionAt decoder elf addr = some (declared inst)) :
    UpdatesExposed decoder elf addr inst := by
  intro successor flag step exposed declaredFlag
  obtain ⟨path, length, start, isPath, reader, clear⟩ := exposed.exists_path
  obtain ⟨before, after, split⟩ := List.append_of_mem member
  have here : (declared inst).address = addr :=
    Oxtra.instructionAt_address fetched
  rw [declared_toInstruction] at here
  refine keeps before inst [] after flag (by simpa using split) declaredFlag
    (by simp) (fun index => if index = 0 then inst.address else
      path (index - 1)) length (by simp) ?_ (by simpa using reader) ?_
  · intro index inside
    rcases index with _ | index
    · change (controlFlow decoder elf).next inst.address (path 0)
      rw [here, start]
      exact ⟨declared inst, fetched, step⟩
    · simpa using isPath index (by omega)
  · intro index inside
    simpa using clear index inside

/-- A flag that is exposed behind an instruction without an update of it is
exposed in front of the instruction. -/
theorem exposedAt_of_successor
    {successor : Word}
    {flag : Flag}
    (fetched : instructionAt decoder elf addr = some inst)
    (step : inst.Successor (inst.following addr) successor)
    (exposed : exposedAt decoder elf successor flag)
    (undeclared : flag ∉ inst.instructionClass.declaredUpdate) :
    exposedAt decoder elf addr flag := by
  refine .pass ?_ ⟨inst, fetched, step⟩ exposed
  rintro ⟨other, otherFetched, updated⟩
  obtain rfl := Option.some.inj (fetched.symm.trans otherFetched)
  rw [(instructionAt_declares fetched).1] at updated
  exact undeclared updated

/-- A flag that an instruction requires is exposed in front of it. -/
theorem exposedAt_of_require
    {flag : Flag}
    (fetched : instructionAt decoder elf addr = some inst)
    (required : flag ∈ inst.instructionClass.declaredRequire) :
    exposedAt decoder elf addr flag := by
  rw [← (instructionAt_declares fetched).2.1] at required
  exact .read ⟨inst, fetched, required⟩

end Exposed

/-! ## The code of a block follows the machine -/

/-- The machine goes through some instructions in their order and stops at one
of them, or that one is not supported. -/
inductive HaltsIn
    (decoder : Fadec.Decoder)
    (elf : Elf)
    (mapped : AddressSpace) : List Instruction -> Configuration -> Prop where
  | here {inst : Instruction} {rest : List Instruction} {start : Configuration}
      (reached : start.pc = inst.address)
      (stuck : ¬ Proceeds decoder elf mapped start) :
      HaltsIn decoder elf mapped (inst :: rest) start
  | behind {inst : Instruction} {rest : List Instruction}
      {start next : Configuration}
      (reached : start.pc = inst.address)
      (stepped : step decoder elf mapped start = some next)
      (halts : HaltsIn decoder elf mapped rest next) :
      HaltsIn decoder elf mapped (inst :: rest) start

/-- The machine gets to the instruction that it halts at. -/
theorem HaltsIn.reaches
    {decoder : Fadec.Decoder}
    {elf : Elf}
    {mapped : AddressSpace}
    {instructions : List Instruction}
    {start : Configuration}
    (halts : HaltsIn decoder elf mapped instructions start) :
    ∃ stop, StateTransition.Reaches (step decoder elf mapped) start stop ∧
      ¬ Proceeds decoder elf mapped stop := by
  induction halts with
  | here _ stuck => exact ⟨_, Relation.ReflTransGen.refl, stuck⟩
  | behind _ stepped _ inductionHypothesis =>
      obtain ⟨stop, reaches, stuck⟩ := inductionHypothesis
      exact ⟨stop, .head stepped reaches, stuck⟩

/-- Some code goes on as the machine does: it is left for the address that the
machine gets to, and the flags are known that are exposed there.  Otherwise the
machine halts in the instructions of the code. -/
def GoesOn
    (decoder : Fadec.Decoder)
    (elf : Elf)
    (layout : Layout)
    (env : Environment)
    (serves : Word -> Word -> Prop)
    (emits : List Inst -> Prop)
    (code : List Inst)
    (instructions : List Instruction)
    (moves : Configuration -> Configuration -> Prop)
    (start : Configuration)
    (state : State) : Prop :=
  HaltsIn decoder elf layout.mapped instructions start ∨
    ∃ stop after, moves start stop ∧
      LeavesFor env layout serves emits code state stop.pc after ∧
      Represents layout (exposedAt decoder elf stop.pc) stop.machine after ∧
      KeepsHost layout state after

section Simulate

variable {decoder : Fadec.Decoder} {elf : Elf} {layout : Layout}
variable {serves : Word -> Word -> Prop} {emits other : List Inst -> Prop}
variable {env : Environment} {first code : List Inst}
variable {inst : Instruction} {instructions : List Instruction}
variable {start middle : Configuration} {state between : State}

/-- The code in front runs to its end while the machine takes a step. -/
theorem GoesOn.behind
    (further : GoesOn decoder elf layout (env.shift first.length) serves other
      code instructions
      (StateTransition.Reaches (step decoder elf layout.mapped)) middle
      between)
    (reached : start.pc = inst.address)
    (stepped : step decoder elf layout.mapped start = some middle)
    (ends : env.Exits first state (.ended between))
    (keeps : KeepsHost layout state between)
    (joins : ∀ {code}, other code -> emits (first ++ code)) :
    GoesOn decoder elf layout env serves emits (first ++ code)
      (inst :: instructions)
      (StateTransition.Reaches₁ (step decoder elf layout.mapped)) start
      state := by
  rcases further with halts | ⟨stop, after, reaches, leaves, represents, kept⟩
  · exact Or.inl (.behind reached stepped halts)
  · exact Or.inr ⟨stop, after, Relation.TransGen.head' stepped reaches,
      leaves.behind ends joins, represents, keeps.trans kept⟩

theorem GoesOn.weaken
    (goesOn : GoesOn decoder elf layout env serves emits code instructions
      (StateTransition.Reaches₁ (step decoder elf layout.mapped)) start
      state) :
    GoesOn decoder elf layout env serves emits code instructions
      (StateTransition.Reaches (step decoder elf layout.mapped)) start state := by
  rcases goesOn with halts | ⟨stop, after, reaches, leaves⟩
  · exact Or.inl halts
  · exact Or.inr ⟨stop, after, reaches.to_reflTransGen, leaves⟩

theorem GoesOn.imp
    {moves : Configuration -> Configuration -> Prop}
    (goesOn : GoesOn decoder elf layout env serves other code instructions moves
      start state)
    (implies : ∀ {code}, other code -> emits code) :
    GoesOn decoder elf layout env serves emits code instructions moves start
      state := by
  rcases goesOn with halts | ⟨stop, after, reaches, leaves, further⟩
  · exact Or.inl halts
  · exact Or.inr ⟨stop, after, reaches, leaves.imp implies, further⟩

/-- The machine is not supported from the start. -/
theorem GoesOn.of_not_proceeds
    {moves : Configuration -> Configuration -> Prop}
    (reached : start.pc = inst.address)
    (stuck : ¬ Proceeds decoder elf layout.mapped start) :
    GoesOn decoder elf layout env serves emits code (inst :: instructions) moves
      start state :=
  Or.inl (.here reached stuck)

end Simulate

section Instructions

variable {decoder : Fadec.Decoder} {elf : Elf} {layout : Layout}
variable {env : Environment} {addr : Word} {inst : Instruction}
variable {machine : Machine} {state : State} {code : List Inst}
variable {runtime : JumpTable.Runtime} {symbols : HostSymbols}
variable {generate : Instruction -> Option (List Inst)}
variable {serves : Word -> Word -> Prop} {position : Word}
variable (generates : Generates generate symbols)

/-- An instruction without branches has the code that is generated for it. -/
theorem Emitted.of_straight
    (emitted : Emitted generate serves position inst code)
    (straight : inst.instructionClass.controlFlowDimension = 0) :
    generate inst = some code := by
  cases emitted with
  | generated generated => exact generated
  | conditional kind =>
      rw [kind] at straight
      cases straight
  | jump kind =>
      rw [kind] at straight
      cases straight

section Slots

include generates

theorem Emitted.of_conditional
    {condition : Condition}
    (emitted : Emitted generate serves position inst code)
    (kind : inst.instructionClass = .jcc condition)
    (direct : (inst.getOperand 0).isImm = true) :
    ∃ slot, code = Jcc.execute slot condition ∧
      Slot serves
        (position + BitVec.ofNat 64 (4 * (Jcc.front condition).length))
        inst.immediate slot := by
  cases emitted with
  | generated generated =>
      obtain ⟨entries, same⟩ := generates inst
      rw [same, Instruction.generate, kind] at generated
      obtain rfl := Option.some.inj generated
      refine ⟨appendEob inst.immediate, ?_, .calls⟩
      rw [Jcc.generate, Jcc.generateJump, if_pos direct]
  | conditional other slot =>
      rw [kind] at other
      cases other
      exact ⟨_, rfl, slot⟩
  | jump other =>
      rw [kind] at other
      cases other

theorem Emitted.of_jump
    (emitted : Emitted generate serves position inst code)
    (kind : inst.instructionClass = .jmp)
    (direct : (inst.getOperand 0).isImm = true) :
    Slot serves position inst.immediate code := by
  cases emitted with
  | generated generated =>
      obtain ⟨entries, same⟩ := generates inst
      rw [same, Instruction.generate, kind] at generated
      obtain rfl := Option.some.inj generated
      rw [Jmp.generate, Jcc.generateJump, if_pos direct]
      exact .calls
  | conditional other =>
      rw [kind] at other
      cases other
  | jump _ slot => exact slot

end Slots

section Steps

variable (fetched : instructionAt decoder elf addr = some (declared inst))
variable (permits : env.PermitsEverything)
variable (represents : Represents layout (exposedAt decoder elf addr) machine
  state)

include fetched permits represents

/-- The code of an instruction without branches. -/
theorem Form.goesOn
    {entries : Nat}
    (generated : inst.generate symbols entries = some code)
    (form : Form inst)
    (assigned : UpdatesExposed decoder elf addr inst)
    (quiet : QuietNot inst)
    {after : Machine}
    (performs : perform layout.mapped inst machine = some after) :
    ∃ final, (JumpTable.dispatch runtime env).Exits code state (.ended final) ∧
      Represents layout (exposedAt decoder elf (inst.following addr)) after
        final ∧
      KeepsHost layout state final := by
  obtain ⟨own, final, ownGenerated, exits, follows⟩ := form.follows quiet
    represents (fun flag required => exposedAt_of_require fetched required)
    performs permits symbols entries
  obtain rfl := Option.some.inj (generated.symm.trans ownGenerated)
  obtain ⟨flags, fsBase, gsBase⟩ := perform_keeps performs
  have keeps : StepKeeps (declaredOnly inst) machine after :=
    ⟨flags, fsBase, gsBase⟩
  obtain ⟨straight, continues⟩ := form.straight
  have step : (declared inst).Successor (inst.following addr)
      (inst.following addr) :=
    Instruction.successor_following fetched
      ((instructionAt_declares fetched).2.2.trans continues)
  refine ⟨final, exits, (represents.follows keeps follows).mono ?_,
    follows.host⟩
  intro flag exposed
  by_cases declaredFlag : flag ∈ inst.instructionClass.declaredUpdate
  · exact Or.inl (mem_declaredOnly.mpr
      ⟨assigned _ flag step exposed declaredFlag, declaredFlag⟩)
  · exact Or.inr
      ⟨exposedAt_of_successor fetched step exposed declaredFlag, declaredFlag⟩

end Steps

end Instructions

/-! ## Branches -/

section Branches

variable {decoder : Fadec.Decoder} {elf : Elf} {layout : Layout}
variable {env : Environment} {addr : Word} {inst : Instruction}
variable {machine : Machine} {state : State} {code further : List Inst}
variable {runtime : JumpTable.Runtime} {symbols : HostSymbols}
variable {generate : Instruction -> Option (List Inst)}
variable {serves : Word -> Word -> Prop} {emits other : List Inst -> Prop}
variable {rest : List Instruction}
variable (stored : ∀ target pc, serves target pc -> layout.StoredCode target)
variable (noReturn : ∀ state, runtime .rerouteStatic state = none)
variable (permits : env.PermitsEverything)

theorem temporaries_host :
    ∀ register ∈ temporaries, isGuest register = true ∨ register ∈ temporaries :=
  fun _ => Or.inr

include stored permits in
/-- The code behind the last instruction of a block that ends at the next stored
one. -/
theorem farJump_goesOn
    {count : Nat}
    {target : Word}
    (represents : Represents layout (exposedAt decoder elf addr) machine state)
    (served : serves target addr) :
    GoesOn decoder elf layout ((JumpTable.dispatch runtime env).shift count)
      serves (fun same => same = farJump target) (farJump target) []
      (StateTransition.Reaches (step decoder elf layout.mapped))
      ⟨addr, machine⟩ state := by
  have isStored := stored target addr served
  obtain ⟨after, exits, small⟩ := @farJump_leaves runtime (env.shift count)
    state permits target isStored.aligned
    (by rw [represents.table]; exact isStored.outside) []
  have unchanged : Unchanged temporaries state after := small.mono (by decide)
  rw [List.append_nil] at exits
  exact Or.inr ⟨⟨addr, machine⟩, after, Relation.ReflTransGen.refl,
    .enters exits served, represents.of_unchanged unchanged fun _ => id,
    KeepsHost.of_unchanged unchanged temporaries_host⟩

section Steps

variable (fetched : instructionAt decoder elf addr = some (declared inst))
variable (represents : Represents layout (exposedAt decoder elf addr) machine
  state)

include stored noReturn permits fetched represents

/-- The code of a direct jump is left for the address of the jump. -/
theorem jump_goesOn
    (kind : inst.instructionClass = .jmp)
    (direct : (inst.getOperand 0).isImm = true)
    (slot : Slot serves env.origin inst.immediate code) :
    GoesOn decoder elf layout (JumpTable.dispatch runtime env) serves
      (Slot serves env.origin inst.immediate) code [inst]
      (StateTransition.Reaches₁ (step decoder elf layout.mapped))
      ⟨addr, machine⟩ state := by
  have stepped := @step_jump decoder elf layout.mapped addr (declared inst)
    machine fetched kind direct
  obtain ⟨after, small, leaves⟩ :=
    slot_leaves permits noReturn stored slot represents.table
  have unchanged : Unchanged temporaries state after := small.mono (by decide)
  refine Or.inr ⟨⟨inst.immediate, machine⟩, after,
    Relation.TransGen.single stepped, leaves,
    (represents.of_unchanged unchanged fun _ => id).mono ?_,
    KeepsHost.of_unchanged unchanged temporaries_host⟩
  intro flag exposed
  refine exposedAt_of_successor fetched ?_ exposed ?_
  · have one : (declared inst).controlFlowDimension = 1 := by
      rw [Instruction.controlFlowDimension,
        show (declared inst).instructionClass = .jmp from kind]
      rfl
    rw [Instruction.Successor, one]
    exact fun _ => rfl
  · rw [show (declared inst).instructionClass = .jmp from kind]
    exact Flags.not_mem_none

/-- The code of a conditional jump is left for the address of the jump, or goes
on behind it. -/
theorem conditional_goesOn
    {condition : Condition}
    (kind : inst.instructionClass = .jcc condition)
    (slot : Slot serves (env.address (Jcc.front condition).length)
      inst.immediate code)
    (later : ∀ {after final},
      Represents layout (exposedAt decoder elf (inst.following addr)) after
          final ->
        GoesOn decoder elf layout ((JumpTable.dispatch runtime env).shift
          (Jcc.execute code condition).length) serves other further rest
          (StateTransition.Reaches (step decoder elf layout.mapped))
          ⟨inst.following addr, after⟩ final)
    (joins : ∀ {behind}, other behind ->
      emits (Jcc.execute code condition ++ behind))
    (fills : ∀ {same}, Slot serves
        (env.address (Jcc.front condition).length) inst.immediate same ->
      emits (Jcc.execute same condition ++ further)) :
    GoesOn decoder elf layout (JumpTable.dispatch runtime env) serves emits
      (Jcc.execute code condition ++ further) (inst :: rest)
      (StateTransition.Reaches₁ (step decoder elf layout.mapped))
      ⟨addr, machine⟩ state := by
  have here : addr = inst.address := (Oxtra.instructionAt_address fetched).symm
  have two : (declared inst).controlFlowDimension = 2 := by
    rw [Instruction.controlFlowDimension,
      show (declared inst).instructionClass = .jcc condition from kind]
    rfl
  have stepped := @step_conditional decoder elf layout.mapped addr _
    machine condition fetched kind
  obtain ⟨after, unchanged, outcome⟩ := conditional_leaves permits noReturn
    stored represents slot fun flag required =>
      exposedAt_of_require fetched
        (by
          rw [show (declared inst).instructionClass = .jcc condition from kind]
          exact required)
  have host : KeepsHost layout state after :=
    KeepsHost.of_unchanged unchanged temporaries_host
  have reached : ∀ successor,
      successor = inst.immediate ∨ successor = inst.following addr ->
        Represents layout (exposedAt decoder elf successor) machine
          after := by
    intro successor either
    refine (represents.of_unchanged unchanged fun _ => id).mono ?_
    intro flag exposed
    refine exposedAt_of_successor fetched ?_ exposed ?_
    · rw [Instruction.Successor, two]
      exact either
    · rw [show (declared inst).instructionClass = .jcc condition from kind]
      exact Flags.not_mem_none
  cases met : condition.holds machine.flags with
  | true =>
      rw [met, if_pos rfl] at outcome
      simp only [met, if_true] at stepped
      refine Or.inr ⟨⟨inst.immediate, machine⟩, after,
        Relation.TransGen.single stepped, outcome.append ?_,
        reached _ (Or.inl rfl), host⟩
      rintro same - ⟨inSlot, rfl, isSlot⟩
      exact fills isSlot
  | false =>
      rw [met, if_neg Bool.false_ne_true] at outcome
      simp only [met, if_neg Bool.false_ne_true] at stepped
      exact (later (reached _ (Or.inr rfl))).behind here stepped outcome host joins

/-- The code of an instruction that does not end its block, in front of further
code. -/
theorem Emitted.goesOn
    (generates : Generates generate symbols)
    (emitted : Emitted generate serves env.origin inst code)
    (continues : inst.endOfBlock = false)
    (assigned : UpdatesExposed decoder elf addr inst)
    (quiet : QuietNot inst)
    (later : ∀ {after final},
      Represents layout (exposedAt decoder elf (inst.following addr)) after
          final ->
        GoesOn decoder elf layout
          ((JumpTable.dispatch runtime env).shift code.length) serves other
          further rest
          (StateTransition.Reaches (step decoder elf layout.mapped))
          ⟨inst.following addr, after⟩ final)
    (joins : ∀ {behind}, other behind -> emits (code ++ behind))
    (fills : ∀ {same}, Emitted generate serves env.origin inst same ->
      same.length = code.length -> emits (same ++ further)) :
    GoesOn decoder elf layout (JumpTable.dispatch runtime env) serves emits
      (code ++ further) (inst :: rest)
      (StateTransition.Reaches₁ (step decoder elf layout.mapped))
      ⟨addr, machine⟩ state := by
  have here : addr = inst.address := (Oxtra.instructionAt_address fetched).symm
  by_cases proceeds : Proceeds decoder elf layout.mapped ⟨addr, machine⟩
  swap
  · exact GoesOn.of_not_proceeds here proceeds
  obtain ⟨_, otherFetched, supported, isSome⟩ := proceeds
  obtain rfl := Option.some.inj (fetched.symm.trans otherFetched)
  cases supported with
  | plain form =>
      have own : Form inst := form.setUpdate inst.updateFlags
      have stepped := @step_straight decoder elf layout.mapped addr _
        machine fetched form.straight.1
      rw [stepped, Option.isSome_map, Option.isSome_iff_exists] at isSome
      obtain ⟨after, performs⟩ := isSome
      rw [performs] at stepped
      obtain ⟨entries, same⟩ := generates inst
      have generated := emitted.of_straight own.straight.1
      rw [same] at generated
      obtain ⟨final, exits, representsAfter, host⟩ := Form.goesOn fetched
        permits represents generated own assigned quiet performs
      exact (later representsAfter).behind here stepped exits host joins
  | conditional condition kind =>
      have two : (declared inst).controlFlowDimension = 2 := by
        rw [Instruction.controlFlowDimension, kind]
        rfl
      have direct := instructionAt_conditional_isImm fetched two
      obtain ⟨slot, rfl, isSlot⟩ :=
        emitted.of_conditional generates kind direct
      refine conditional_goesOn stored noReturn permits fetched represents kind
        isSlot later joins fun {same} isSlot' => fills (.conditional kind isSlot') ?_
      rw [Jcc.execute_eq_fill isSlot'.length_eq,
        Jcc.execute_eq_fill isSlot.length_eq,
        Hole.length_fill isSlot'.length_eq, Hole.length_fill isSlot.length_eq]
  | jump kind direct =>
      have ends := (instructionAt_declares fetched).2.2.symm.trans continues
      rw [kind] at ends
      cases ends

end Steps

include stored noReturn permits

/-- The code of a block goes on as the machine does, from each of its
instructions. -/
theorem TranslatedFrom.goesOn
    {position : Word}
    {instructions : List Instruction}
    {codes : List (List Inst)}
    (generates : Generates generate symbols)
    (translated : TranslatedFrom decoder elf generate serves position addr
      instructions codes)
    (assigned : ∀ inst ∈ instructions, ∀ addr,
      instructionAt decoder elf addr = some (declared inst) ->
        UpdatesExposed decoder elf addr inst)
    (quiet : ∀ inst ∈ instructions, QuietNot inst)
    (origin : env.origin = position)
    (represents : Represents layout (exposedAt decoder elf addr) machine
      state) :
    GoesOn decoder elf layout (JumpTable.dispatch runtime env) serves
      (Translates decoder elf generate serves position addr instructions
        codes) codes.flatten instructions
      (StateTransition.Reaches₁ (step decoder elf layout.mapped))
      ⟨addr, machine⟩ state := by
  induction translated generalizing env machine state with
  | @ends position addr inst code fetched emitted endOfBlock =>
      subst origin
      have here : addr = inst.address :=
        (Oxtra.instructionAt_address fetched).symm
      by_cases proceeds : Proceeds decoder elf layout.mapped ⟨addr, machine⟩
      swap
      · exact GoesOn.of_not_proceeds here proceeds
      obtain ⟨other, otherFetched, supported, -⟩ := proceeds
      obtain rfl := Option.some.inj (fetched.symm.trans otherFetched)
      have endsBlock : inst.instructionClass.endsBlock = true :=
        (instructionAt_declares fetched).2.2.symm.trans endOfBlock
      cases supported with
      | plain form =>
          have own : Form inst := form.setUpdate inst.updateFlags
          rw [own.straight.2] at endsBlock
          cases endsBlock
      | conditional condition kind =>
          rw [show inst.instructionClass = .jcc condition from kind]
            at endsBlock
          cases endsBlock
      | jump kind direct =>
          have isSlot := emitted.of_jump generates kind direct
          rw [List.flatten_singleton]
          refine (jump_goesOn stored noReturn permits fetched represents kind
            direct isSlot).imp fun {same} isSlot' => ?_
          refine ⟨[same], List.flatten_singleton .., ?_,
            .ends fetched (.jump kind isSlot') endOfBlock⟩
          simp [isSlot.length_eq, isSlot'.length_eq]
  | @falls position addr target inst code fetched emitted continues served =>
      subst origin
      rw [List.flatten_singleton]
      refine Emitted.goesOn stored noReturn permits fetched represents generates
        emitted continues (assigned inst (by simp) addr fetched)
        (quiet inst (by simp))
        (fun {after final} represents => farJump_goesOn stored permits
          represents served) ?_ ?_
      · rintro behind rfl
        exact ⟨[code ++ farJump target], List.flatten_singleton .., rfl,
          .falls fetched emitted continues served⟩
      · intro same emitted' length
        refine ⟨[same ++ farJump target], List.flatten_singleton .., ?_,
          .falls fetched emitted' continues served⟩
        simp [length]
  | @cons position addr inst code rest further fetched emitted continues behind
      inductionHypothesis =>
      subst origin
      simp only [List.forall_mem_cons] at assigned quiet
      rw [List.flatten_cons]
      refine Emitted.goesOn stored noReturn permits fetched represents generates
        emitted continues (assigned.1 addr fetched) quiet.1
        (fun {after final} represents =>
          (@inductionHypothesis (env.shift code.length) after final permits
            assigned.2 quiet.2 rfl represents).weaken) ?_ ?_
      · rintro _ ⟨same, rfl, lengths, translated⟩
        exact ⟨code :: same, List.flatten_cons .., by simp [lengths],
          .cons fetched emitted continues translated⟩
      · intro same emitted' length
        refine ⟨same :: further, List.flatten_cons .., by simp [length],
          .cons fetched emitted' continues ?_⟩
        rw [length]
        exact behind

end Branches

end Guest
end Oxtra

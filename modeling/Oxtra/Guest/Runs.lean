import Oxtra.Dispatcher.Tlb
import Oxtra.Guest.Translations

/-!
# Runs of the guest

The host runs the code of a guest address until it leaves for another block,
directly or through `reroute_static`, which looks the address up in the
translation lookaside buffer or has it translated, and links the slot that it
was called from to the code.  In every run of the host, the code that is
entered belongs to an address that the machine gets to, and the host represents
the machine there.  The simulation ends with the first code that is entered in
front of an instruction that is not supported.
-/

namespace Oxtra
namespace Guest

open RiscV
open Helper
open Instruction
open CodeGenerator
open Dispatcher (Within Apart Spared Resumed)

/-! ## The host -/

/-- What the translated code runs on: the translator with the texts that its
code refers to, the layout with the address of the lookaside buffer, the
routines that code calls, and the functions that the dispatcher calls when some
code is stored. -/
structure Host where
  translator : Translator
  symbols : HostSymbols
  layout : Layout
  tlb : Word
  runtime : JumpTable.Runtime
  dispatcher : CodeStore -> Dispatcher.Runtime

/-- The code that is entered, with the state it is entered in and the store. -/
structure HostState where
  riscv : Word
  state : State
  store : CodeStore

/-- How the code of an address is left: for other code, or by a call of
`reroute_static` with its return address. -/
inductive Event where
  | enters
  | reroutes (back : Word) (result : Dispatcher.Rerouted)

namespace Host

variable (host : Host)

/-- A step of the machine. -/
def step : Configuration -> Option Configuration :=
  Guest.step host.translator.decoder host.translator.elf host.layout.mapped

/-- Code that is run at an address. -/
def environment (riscv : Word) (aligned : riscv.toNat % 4 = 0) : Environment :=
  JumpTable.dispatch host.runtime (CodeGenerator.environment riscv aligned)

/-- The code at an address of the host is left. -/
def Leaves (entered : HostState) (target : Word) (after : State) : Prop :=
  ∃ aligned code, HoldsCode entered.store.words entered.riscv code ∧
    (host.environment entered.riscv aligned).Exits code entered.state
      (.left target after)

/-- The store behind the call of `translate`, which `reroute_static` leaves out
if the address is in the buffer.  The number of entries in the call table may
be any. -/
inductive Translating
    (store : CodeStore)
    (result : Dispatcher.Rerouted) : CodeStore -> Prop where
  | found (hit : result.hit = true) : Translating store result store
  | translated {generate : Instruction -> Option (List Inst)}
      {after : CodeStore}
      (missed : result.hit = false)
      (generates : Generates generate host.symbols)
      (returned : { host.translator with generate }.translate store
        result.address = .ok (result.riscv, after)) :
      Translating store result after

/-- The code of some address runs until it is left, and the code of the next
address is entered. -/
inductive Round : Event -> HostState -> HostState -> Prop where
  | jumps {entered : HostState} {target : Word} {after : State}
      (leaves : host.Leaves entered target after)
      (direct : target ≠ host.layout.entry .rerouteStatic) :
      Round .enters entered ⟨target, after, entered.store⟩
  | reroutes {entered : HostState} {after : State}
      {result : Dispatcher.Rerouted} {translated linked : CodeStore}
      (leaves : host.Leaves entered (host.layout.entry .rerouteStatic) after)
      (ran : Dispatcher.rerouteStatic (host.dispatcher entered.store) after =
        some result)
      (translating : host.Translating entered.store result translated)
      (links : translated.updateBasicBlock (after.get .ra) result.riscv =
        some linked) :
      Round (.reroutes (after.get .ra) result) entered
        ⟨result.target, result.state, linked⟩

/-- What is asked of a round: a block that is translated is suitable, and the
code that a slot is linked to is none that the jump misses. -/
def Suits (store : CodeStore) : Event -> Prop
  | .enters => True
  | .reroutes back result =>
      (result.hit = false -> Suitable host.translator store result.address) ∧
        ¬ OutOfReach (result.riscv - slotStart back).toInt

/-- A round that suits. -/
def Suited (entered left : HostState) : Prop :=
  ∃ event, host.Round event entered left ∧ host.Suits entered.store event

/-- The functions of the dispatcher keep the memory of the guest, the context
and the buffer, which do not overlap, and the code is apart from the jump
table. -/
structure Surroundings (kept translated : Word -> Prop) : Prop where
  mapped : ∀ store, Tlb.Mapped (host.dispatcher store) kept translated
    host.layout.context host.tlb
  guest : ∀ pointer, host.layout.mapped pointer = true ->
    kept pointer ∧ translated pointer ∧ ¬ Within host.tlb Tlb.size pointer
  noReturn : ∀ state, host.runtime .rerouteStatic state = none
  codeOutside : host.layout.CodeOutside host.translator.memory

/-- The code of the address of a configuration is entered in a state that
represents its machine.  The buffer has code of its addresses only. -/
structure Enters
    (serves : Word -> Word -> Prop)
    (configuration : Configuration)
    (riscv : Word)
    (state : State) : Prop where
  code : serves riscv configuration.pc
  represents : Represents host.layout
    (exposedAt host.translator.decoder host.translator.elf configuration.pc)
    configuration.machine state
  tlb : state.get .s9 = host.tlb
  buffer : ∀ slot, (Tlb.entries host.tlb state.mem slot).1 = 0 ∨
    serves (Tlb.entries host.tlb state.mem slot).2
      (Tlb.entries host.tlb state.mem slot).1

/-- The store holds translated blocks, and the code of one of them is
entered. -/
structure Holds
    (blocks : List HostBlock)
    (configuration : Configuration)
    (entered : HostState) : Prop where
  translated : Translated host.translator host.symbols entered.store blocks
  enters : host.Enters (Serves entered.store blocks) configuration
    entered.riscv entered.state

/-- The machine halts in the instructions that the entered code belongs to, from
the first one to the last of their block. -/
def Halts
    (blocks : List HostBlock)
    (configuration : Configuration)
    (entered : HostState) : Prop :=
  ∃ (index place : Nat) (block : HostBlock), blocks[index]? = some block ∧
    entered.riscv =
      positionOf (entered.store.block index).riscvStart block.codes place ∧
    HaltsIn host.translator.decoder host.translator.elf host.layout.mapped
      (block.instructions.drop place) configuration

/-- How the simulation ends with the code that is entered: the machine halts in
its instructions, or it is left for an address without an instruction. -/
inductive Ends
    (blocks : List HostBlock)
    (configuration : Configuration)
    (entered : HostState) : Prop where
  | halts (halts : host.Halts blocks configuration entered)
  | nowhere {final : State}
      (leaves : host.Leaves entered (host.layout.entry .rerouteStatic) final)
      (nothing : instructionAt host.translator.decoder host.translator.elf
        (final.get addressDestination) = none)

/-- The code that is entered behind some rounds belongs to an address that the
machine gets to, and the code of an address stays where it is. -/
structure Simulates
    (blocks : List HostBlock)
    (start : Configuration)
    (entered : HostState)
    (others : List HostBlock)
    (stop : Configuration)
    (left : HostState) : Prop where
  reaches : StateTransition.Reaches host.step start stop
  holds : host.Holds others stop left
  serves : ∀ riscv pc, Serves entered.store blocks riscv pc ->
    Serves left.store others riscv pc

section Rounds

variable {host : Host} {kept translated : Word -> Prop}
variable {serves other : Word -> Word -> Prop}

theorem Enters.mono
    {configuration : Configuration}
    {riscv : Word}
    {state : State}
    (enters : host.Enters serves configuration riscv state)
    (implies : ∀ target pc, serves target pc -> other target pc) :
    host.Enters other configuration riscv state where
  code := implies _ _ enters.code
  represents := enters.represents
  tlb := enters.tlb
  buffer slot := (enters.buffer slot).imp_right (implies _ _)

/-- The code at an address is left in one way only. -/
theorem exits_unique_of_held
    {words : CodeWords}
    {start target otherTarget : Word}
    {env : Environment}
    {first second : List Inst}
    {state after final : State}
    (firstHeld : HoldsCode words start first)
    (secondHeld : HoldsCode words start second)
    (firstExits : env.Exits first state (.left target after))
    (secondExits : env.Exits second state (.left otherTarget final)) :
    target = otherTarget ∧ after = final := by
  wlog short : first.length ≤ second.length
  · exact (this secondHeld firstHeld secondExits firstExits
      (Nat.le_of_not_le short)).imp Eq.symm Eq.symm
  have isPrefix : second.take first.length = first := by
    refine HoldsCode.unique (fun index inst found => secondHeld index inst ?_)
      firstHeld (by rw [List.length_take, Nat.min_eq_left short])
    rw [List.getElem?_take] at found
    split at found
    · exact found
    · cases found
  have whole := firstExits.append_left (second.drop first.length)
    (by simp) (by simp)
  rw [← isPrefix, List.length_take, Nat.min_eq_left short,
    List.take_append_drop] at whole
  have same := whole.unique secondExits
  simpa only [Exit.left.injEq] using same

section Surrounded

variable (surroundings : host.Surroundings kept translated)
variable {known : Flag -> Prop} {machine : Machine} {state after : State}

include surroundings

/-- The buffer is apart from the context. -/
theorem Surroundings.outside
    {pointer : Word}
    (inside : Within host.tlb Tlb.size pointer) :
    ExecutionContext.size ≤ (pointer - host.layout.context).toNat := by
  have apart := (surroundings.mapped (.empty
    host.translator.elf)).apart pointer inside
  simpa only [Within, not_lt] using apart

/-- Code of the guest keeps the buffer. -/
theorem Surroundings.entries_eq
    (context : state.get contextAddress = host.layout.context)
    (keeps : KeepsHost host.layout state after) :
    Tlb.entries host.tlb after.mem = Tlb.entries host.tlb state.mem := by
  funext slot
  apply Tlb.entries_eq
  intro pointer within
  have inside := Tlb.slot_within slot within
  have outside := surroundings.outside inside
  rw [ExecutionContext.size] at outside
  apply keeps.memory
  · by_contra mapped
    exact (surroundings.guest pointer
      (Bool.eq_true_of_not_eq_false mapped)).2.2 inside
  · rw [context, savedBytes]
    omega
  · rw [FlagInfo.Outside, context, FlagInfo.Field.limit]
    omega

/-- Rerouting does not change what is represented. -/
theorem Surroundings.represents
    (represents : Represents host.layout known machine state)
    {result : Dispatcher.Rerouted}
    (resumed : Resumed state (Spared kept translated state result.entry)
      result)
    (inBuffer : ∀ pointer, Within result.entry 16 pointer ->
      Within host.tlb Tlb.size pointer) :
    Represents host.layout known machine result.state := by
  have reserved : ∀ register ∈ [returnStack, Dispatcher.tlbAddress,
      jumpTableAddress, contextAddress],
        result.state.get register = state.get register := by
    intro register member
    obtain ⟨slot, inSlots, rfl, notTable⟩ :=
      Dispatcher.reserved_slot register member
    exact resumed.registers slot inSlots notTable
  have context : state.get .s11 = host.layout.context := represents.context
  refine represents.of_same (reserved _ (by decide)) (reserved _ (by decide))
    (fun reg => ?_) (fun pointer mapped => resumed.bytes pointer ?_)
    (fun pointer inContext => resumed.bytes pointer ?_)
  · obtain ⟨slot, inSlots, same, notTable⟩ := Dispatcher.mapReg_slot reg
    rw [← same]
    exact resumed.registers slot inSlots notTable
  · obtain ⟨isKept, isTranslated, outside⟩ := surroundings.guest pointer mapped
    refine ⟨isKept, isTranslated, ?_, fun inside =>
      outside (inBuffer pointer inside)⟩
    have apart := host.layout.apart pointer mapped
    rw [context, Within, Dispatcher.contextSize]
    rw [ExecutionContext.size] at apart
    omega
  · obtain ⟨low, high⟩ := inContext
    have keptContext : Dispatcher.KeptContext host.layout.context pointer := by
      refine ⟨high, fun inside => ?_⟩
      have contextLt := host.layout.context.isLt
      have pointerLt := pointer.isLt
      simp only [Within, Dispatcher.slotAddress, savedBytes,
        BitVec.toNat_sub, BitVec.toNat_add, BitVec.toNat_ofNat] at inside low
      omega
    obtain ⟨isKept, isTranslated⟩ :=
      (surroundings.mapped (.empty
        host.translator.elf)).keepsContext pointer keptContext
    refine ⟨isKept, isTranslated, ?_, fun inside => ?_⟩
    · rw [context, Within, Dispatcher.contextSize]
      rw [savedBytes] at low
      omega
    · have outside := surroundings.outside (inBuffer pointer inside)
      omega


/-- The code that a rerouting enters belongs to its address, and the buffer
still has code of its addresses only. -/
theorem Surroundings.rerouted
    {store : CodeStore}
    {pc : Word}
    (represents : Represents host.layout
      (exposedAt host.translator.decoder host.translator.elf pc) machine state)
    (reached : state.get addressDestination = pc)
    (tlb : state.get .s9 = host.tlb)
    (buffer : ∀ slot, (Tlb.entries host.tlb state.mem slot).1 = 0 ∨
      serves (Tlb.entries host.tlb state.mem slot).2
        (Tlb.entries host.tlb state.mem slot).1)
    {result : Dispatcher.Rerouted}
    (ran : Dispatcher.rerouteStatic (host.dispatcher store) state = some result)
    (missed : result.hit = false -> serves result.riscv result.address)
    (aligned : ∀ riscv pc, serves riscv pc -> riscv.toNat % 4 = 0) :
    pc = 0 ∨ result.target = result.riscv ∧
      host.Enters serves ⟨pc, machine⟩ result.target result.state := by
  have context : state.get .s11 = host.layout.context := represents.context
  have mapped := surroundings.mapped store
  have placed := mapped.placed tlb context (state.get .t3)
  obtain ⟨address, resumed, -, -⟩ := Dispatcher.rerouteStatic_spec
    mapped.follows placed ran
  obtain ⟨-, looked, sameTlb, -⟩ := @Tlb.looked _ _ _ _ _ _ _ .static
    mapped tlb context (by simp) (by simp) ran
  rw [addressDestination] at reached
  rw [reached] at address
  have inBuffer : ∀ pointer, Within result.entry 16 pointer ->
      Within host.tlb Tlb.size pointer := by
    intro pointer inside
    rw [looked.entry] at inside
    exact Tlb.slot_within _ inside
  have after := surroundings.represents represents resumed inBuffer
  have target : serves result.riscv pc -> result.target = result.riscv := by
    intro served
    have aligned := aligned _ _ served
    rw [resumed.target, clear_lowest_bit (by omega)]
  rcases looked.outcome with ⟨-, found, same⟩ | ⟨isMissed, -, inserted⟩
  · have held := buffer (Tlb.slotOf result.address)
    rw [found, address] at held
    refine held.imp_right fun served => ⟨target served, ?_, after, sameTlb, ?_⟩
    · rw [target served]
      exact served
    · rw [same]
      exact buffer
  · have served := missed isMissed
    have atPc : serves result.riscv pc := address ▸ served
    refine Or.inr ⟨target atPc, ?_, after, sameTlb, fun slot => ?_⟩
    · rw [target atPc]
      exact atPc
    rw [inserted, DirectMapped.insert]
    by_cases same : slot = Tlb.slotOf result.address
    · rw [same, Function.update_self]
      exact Or.inr served
    · rw [Function.update_of_ne same]
      exact buffer slot

end Surrounded

/-! ## Links -/

/-- The slot in front of an address is in the memory of the code, and may be
linked to code that serves an address. -/
structure Linkable
    (host : Host)
    (store : CodeStore)
    (blocks : List HostBlock)
    (back pc : Word) : Prop where
  inCode : InCode host.translator.memory (slotStart back)
  links : ∀ target, Serves store blocks target pc ->
    ¬ OutOfReach (target - slotStart back).toInt ->
      ∃ after linked, store.updateBasicBlock back target = some after ∧
        Translated host.translator host.symbols after linked ∧
        ∀ riscv pc, Serves store blocks riscv pc ->
          Serves after linked riscv pc

section Entered

variable {blocks further : List HostBlock} {start : Configuration}
variable {entered : HostState} {after : CodeStore}
variable (surroundings : host.Surroundings kept translated)
variable (holds : host.Holds blocks start entered)
variable (extended : Extended host.translator host.symbols entered.store after
  blocks further)

include surroundings holds extended

/-- The code that is entered goes on as the machine does, and its slots may be
linked, also when further blocks have been stored. -/
theorem Holds.goesOn :
    ∃ code, HoldsCode entered.store.words entered.riscv code ∧
      ∃ emits : List Inst -> Prop, (∀ aligned back pc,
        Links (host.environment entered.riscv aligned)
            (Serves after (blocks ++ further)) emits code pc back ->
          host.Linkable after (blocks ++ further) back pc) ∧
      ∀ aligned, host.Halts blocks start entered ∨
        ∃ stop final, StateTransition.Reaches₁ host.step start stop ∧
          LeavesFor (host.environment entered.riscv aligned) host.layout
            (Serves after (blocks ++ further)) emits code entered.state stop.pc
            final ∧
          Represents host.layout
            (exposedAt host.translator.decoder host.translator.elf stop.pc)
            stop.machine final ∧
          KeepsHost host.layout entered.state final := by
  obtain ⟨index, block, place, inst, found, atPlace, address, position⟩ :=
    holds.enters.code
  have inside := (List.getElem?_eq_some_iff.mp found).1
  have foundAfter : (blocks ++ further)[index]? = some block := by
    rw [List.getElem?_append_left inside, found]
  have sound := extended.translated.sound index block foundAfter
  have placed : entered.riscv =
      positionOf (after.block index).riscvStart block.codes place := by
    rw [position, extended.same index inside]
  obtain ⟨generate, generates, code⟩ := sound.code
  have fromHere := code.drop atPlace
  have held : HoldsCode entered.store.words entered.riscv
      (block.codes.drop place).flatten := by
    rw [position]
    exact holds.translated.holdsCode found
  rw [← placed] at fromHere
  refine ⟨_, held, Translates host.translator.decoder host.translator.elf
    generate (Serves after (blocks ++ further)) entered.riscv inst.address
    (block.instructions.drop place) (block.codes.drop place), ?_, ?_⟩
  · rintro aligned back pc ⟨front, behind, split, rfl, linked⟩
    have inside : front.length < (block.codes.drop place).flatten.length := by
      rw [split, List.length_append, List.length_append,
        show (appendEob pc).length = batchSize from rfl, batchSize]
      omega
    have inCode := extended.translated.inCode foundAfter inside
    rw [← placed] at inCode
    have slot : slotStart ((host.environment entered.riscv aligned).address
        (front.length + batchSize)) = _ :=
      slotStart_behind entered.riscv front.length
    refine ⟨?_, fun target served inReach => ?_⟩
    · rw [slot]
      exact inCode
    · rw [slot] at inReach
      exact extended.translated.link foundAfter atPlace placed.symm generates
        code split (linked target served inReach)
  · intro aligned
    obtain ⟨pc, machine⟩ := start
    obtain rfl : inst.address = pc := address
    refine Or.imp_left (fun halts => ⟨index, place, block, found, position,
      halts⟩) (TranslatedFrom.goesOn
      (fun target pc serves =>
        extended.translated.storedCode surroundings.codeOutside serves)
      surroundings.noReturn (CodeGenerator.environment_permits _ _) generates
      fromHere
      (fun inst member =>
        sound.assigned inst (List.mem_of_mem_drop member))
      (fun inst member => sound.quiet inst (List.mem_of_mem_drop member)) rfl
      holds.enters.represents)

/-- What is left for is the code of the address that the machine gets to, or
`reroute_static` is called for it. -/
theorem Holds.leaves
    {target : Word}
    {final : State}
    (left : host.Leaves entered target final) :
    host.Halts blocks start entered ∨
      ∃ stop, StateTransition.Reaches₁ host.step start stop ∧
      Represents host.layout
        (exposedAt host.translator.decoder host.translator.elf stop.pc)
        stop.machine final ∧
      KeepsHost host.layout entered.state final ∧
      (target = host.layout.entry .rerouteStatic ∧
          final.get addressDestination = stop.pc ∧
          host.Linkable after (blocks ++ further) (final.get .ra) stop.pc ∨
        target ≠ host.layout.entry .rerouteStatic ∧
          Serves after (blocks ++ further) target stop.pc) := by
  obtain ⟨code, held, emits, linkable, goes⟩ :=
    holds.goesOn surroundings extended
  obtain ⟨aligned, other, otherHeld, otherExits⟩ := left
  rcases goes aligned with halts | ⟨stop, between, reaches, leaves, represents,
    keeps⟩
  · exact Or.inl halts
  refine Or.inr ⟨stop, reaches, ?_⟩
  cases leaves with
  | reroutes exits reached links =>
      obtain ⟨rfl, rfl⟩ :=
        exits_unique_of_held held otherHeld exits otherExits
      exact ⟨represents, keeps,
        Or.inl ⟨rfl, reached, linkable aligned _ _ links⟩⟩
  | enters exits served =>
      obtain ⟨rfl, rfl⟩ :=
        exits_unique_of_held held otherHeld exits otherExits
      have stored :=
        extended.translated.storedCode surroundings.codeOutside served
      exact ⟨represents, keeps, Or.inr ⟨stored.ne_entry _, served⟩⟩

/-- The code that is entered is left at some time. -/
theorem Holds.exists_leaves :
    host.Halts blocks start entered ∨
      ∃ target final, host.Leaves entered target final := by
  obtain ⟨code, held, emits, -, goes⟩ := holds.goesOn surroundings extended
  have aligned :=
    (holds.translated.storedCode surroundings.codeOutside
      holds.enters.code).aligned
  rcases goes aligned with halts | ⟨_, final, -, leaves, -⟩
  · exact Or.inl halts
  refine Or.inr ?_
  cases leaves with
  | reroutes exits => exact ⟨_, final, aligned, code, held, exits⟩
  | enters exits => exact ⟨_, final, aligned, code, held, exits⟩

end Entered

/-! ## Rounds -/

/-- The translation for a rerouting extends the store. -/
theorem Translating.extended
    {blocks : List HostBlock}
    {store after : CodeStore}
    {result : Dispatcher.Rerouted}
    (translating : host.Translating store result after)
    (translated : Translated host.translator host.symbols store blocks)
    (suitable : result.hit = false ->
      Suitable host.translator store result.address) :
    ∃ further,
      Extended host.translator host.symbols store after blocks further ∧
      (result.hit = false ->
        Serves after (blocks ++ further) result.riscv result.address) := by
  cases translating with
  | found hit =>
      exact ⟨[], .refl translated, fun missed => by simp [hit] at missed⟩
  | @translated generate _ missed generates returned =>
      obtain ⟨meets, covered, notFalls⟩ := suitable missed
      obtain ⟨further, ⟨stored, same⟩, served⟩ :=
        (translated.withGenerate generate).translate generates
          ⟨meets, covered, notFalls⟩ returned
      exact ⟨further, ⟨stored.withGenerate host.translator.generate, same⟩,
        fun _ => served⟩

/-- A run starts with the translation of the entry, when nothing is stored and
the buffer is empty. -/
theorem holds_start
    {generate : Instruction -> Option (List Inst)}
    {addr riscv : Word}
    {store : CodeStore}
    {machine : Machine}
    {state : State}
    (generates : Generates generate host.symbols)
    (suitable : Suitable host.translator (.empty host.translator.elf) addr)
    (returned : { host.translator with generate }.translate
      (.empty host.translator.elf) addr = .ok (riscv, store))
    (represents : Represents host.layout
      (exposedAt host.translator.decoder host.translator.elf addr) machine
      state)
    (tlb : state.get .s9 = host.tlb)
    (blank : ∀ slot, (Tlb.entries host.tlb state.mem slot).1 = 0) :
    ∃ blocks, host.Holds blocks ⟨addr, machine⟩ ⟨riscv, state, store⟩ := by
  have empty : Translated host.translator host.symbols
      (.empty host.translator.elf) [] := .empty
  obtain ⟨meets, covered, notFalls⟩ := suitable
  obtain ⟨further, ⟨stored, -⟩, served⟩ :=
    (empty.withGenerate generate).translate generates
      ⟨meets, covered, notFalls⟩ returned
  rw [List.nil_append] at stored served
  exact ⟨further, stored.withGenerate host.translator.generate, served,
    represents, tlb, fun slot => Or.inl (blank slot)⟩

section Runs

variable {blocks : List HostBlock} {start : Configuration}
variable {entered left : HostState}

/-- Nothing is at the address zero. -/
theorem Ends.of_zero
    {final : State}
    (leaves : host.Leaves entered (host.layout.entry .rerouteStatic) final)
    (zero : final.get addressDestination = 0) :
    host.Ends blocks start entered := by
  refine .nowhere leaves ?_
  rw [zero]
  cases fetched : instructionAt host.translator.decoder host.translator.elf 0 with
  | none => rfl
  | some inst =>
      exact absurd (instructionAt_contains fetched)
        host.translator.elf.not_contains_zero

/-- A rerouting enters the code of the address that the machine gets to, in a
store that may have a further block. -/
theorem Holds.rerouted
    {final : State}
    {result : Dispatcher.Rerouted}
    {after : CodeStore}
    (surroundings : host.Surroundings kept translated)
    (holds : host.Holds blocks start entered)
    (leaves : host.Leaves entered (host.layout.entry .rerouteStatic) final)
    (ran : Dispatcher.rerouteStatic (host.dispatcher entered.store) final =
      some result)
    (translating : host.Translating entered.store result after)
    (suitable : result.hit = false ->
      Suitable host.translator entered.store result.address) :
    host.Ends blocks start entered ∨
      ∃ stop further, StateTransition.Reaches₁ host.step start stop ∧
        Extended host.translator host.symbols entered.store after blocks
          further ∧
        host.Linkable after (blocks ++ further) (final.get .ra) stop.pc ∧
        result.target = result.riscv ∧
        host.Enters (Serves after (blocks ++ further)) stop result.target
          result.state := by
  obtain ⟨further, extended, missed⟩ :=
    translating.extended holds.translated suitable
  rcases holds.leaves surroundings extended leaves with
    halts | ⟨stop, reaches, represents, keeps, outcome⟩
  · exact Or.inl (.halts halts)
  rcases outcome with ⟨-, reached, linkable⟩ | ⟨notEntry, -⟩
  swap
  · exact absurd rfl notEntry
  have sameEntries := surroundings.entries_eq holds.enters.represents.context
    keeps
  have before : host.Enters (Serves after (blocks ++ further)) start
      entered.riscv entered.state :=
    holds.enters.mono fun _ _ serves => serves_append serves extended.same
  have resumed := surroundings.rerouted represents reached
    ((keeps.registers .s9 (by decide) (by decide)).trans holds.enters.tlb)
    (by
      rw [sameEntries]
      exact before.buffer)
    ran missed
    (fun riscv pc serves => (extended.translated.storedCode
      surroundings.codeOutside serves).aligned)
  rcases resumed with zero | ⟨target, enters⟩
  · exact Or.inl (.of_zero leaves (reached.trans zero))
  · exact Or.inr ⟨stop, further, reaches, extended, linkable, target, enters⟩

/-- After a round the host represents the machine behind some of its steps. -/
theorem Holds.round
    (surroundings : host.Surroundings kept translated)
    (holds : host.Holds blocks start entered)
    (round : host.Suited entered left) :
    host.Ends blocks start entered ∨
      ∃ stop others, StateTransition.Reaches₁ host.step start stop ∧
        host.Holds others stop left ∧
        ∀ riscv pc, Serves entered.store blocks riscv pc ->
          Serves left.store others riscv pc := by
  obtain ⟨event, round, suits⟩ := round
  cases round with
  | @jumps _ target after leaves direct =>
      rcases holds.leaves surroundings (.refl holds.translated) leaves with
        halts | ⟨stop, reaches, represents, keeps, outcome⟩
      · exact Or.inl (.halts halts)
      rcases outcome with ⟨isEntry, -⟩ | ⟨-, served⟩
      · exact absurd isEntry direct
      rw [List.append_nil] at served
      refine Or.inr ⟨stop, blocks, reaches, ⟨holds.translated, served,
        represents, ?_, ?_⟩, fun _ _ => id⟩
      · exact (keeps.registers .s9 (by decide) (by decide)).trans
          holds.enters.tlb
      · have sameEntries := surroundings.entries_eq
          holds.enters.represents.context keeps
        rw [sameEntries]
        exact holds.enters.buffer
  | @reroutes _ after result translated linked leaves ran translating links =>
      obtain ⟨suitable, inReach⟩ := suits
      rcases holds.rerouted surroundings leaves ran translating suitable with
        ends | ⟨stop, further, reaches, extended, linkable, target, enters⟩
      · exact Or.inl ends
      have served := enters.code
      rw [target] at served
      obtain ⟨final, others, updates, stored, serves⟩ :=
        linkable.links result.riscv served inReach
      obtain rfl := Option.some.inj (links.symm.trans updates)
      exact Or.inr ⟨stop, others, reaches, ⟨stored, enters.mono serves⟩,
        fun _ _ served => serves _ _ (serves_append served extended.same)⟩

/-- A round suits if the blocks that are translated do, and if no code is so
far from other code that a jump misses it. -/
theorem Holds.suits
    {event : Event}
    (surroundings : host.Surroundings kept translated)
    (holds : host.Holds blocks start entered)
    (round : host.Round event entered left)
    (suitable : ∀ stop, StateTransition.Reaches host.step start stop ->
      Suitable host.translator entered.store stop.pc)
    (near : ∀ slot target, InCode host.translator.memory slot ->
      InCode host.translator.memory target ->
        ¬ OutOfReach (target - slot).toInt) :
    host.Ends blocks start entered ∨ host.Suits entered.store event := by
  cases round with
  | jumps => exact Or.inr trivial
  | @reroutes _ after result translated linked leaves ran translating links =>
      rcases holds.leaves surroundings (.refl holds.translated) leaves with
        halts | ⟨stop, reaches, represents, keeps, outcome⟩
      · exact Or.inl (.halts halts)
      rcases outcome with ⟨-, reached, -⟩ | ⟨notEntry, -⟩
      swap
      · exact absurd rfl notEntry
      have tlb : after.get .s9 = host.tlb :=
        (keeps.registers .s9 (by decide) (by decide)).trans holds.enters.tlb
      obtain ⟨address, -⟩ := @Tlb.looked _ _ _ _ _ _ _ .static
        (surroundings.mapped entered.store) tlb represents.context (by simp)
        (by simp) ran
      have suits : Suitable host.translator entered.store result.address := by
        rw [address.trans reached]
        exact suitable stop reaches.to_reflTransGen
      rcases holds.rerouted surroundings leaves ran translating
          (fun _ => suits) with
        ends | ⟨_, further, -, extended, linkable, target, enters⟩
      · exact Or.inl ends
      have served := enters.code
      rw [target] at served
      exact Or.inr ⟨fun _ => suits, near _ _ linkable.inCode
        (extended.translated.serves_inCode served)⟩

/-- The functions that the dispatcher calls with a store return.  The
translation does if there is an instruction at the address, and is that of the
translator. -/
structure Returns (host : Host) (store : CodeStore) : Prop where
  reroutes : ∀ state, (host.dispatcher store).reroutes state ≠ none
  translate : ∀ called inst,
    instructionAt host.translator.decoder host.translator.elf
      (called.get .a1) = some inst ->
    ∃ returned generate after,
      (host.dispatcher store).translate called = some returned ∧
      Generates generate host.symbols ∧
      { host.translator with generate }.translate store (called.get .a1) =
        .ok (returned.get .a0, after)
  updateBasicBlock : ∀ state,
    (host.dispatcher store).updateBasicBlock state ≠ none

/-- A rerouting to an instruction comes to its end. -/
theorem Returns.rerouteStatic
    {store : CodeStore}
    {state : State}
    {inst : Instruction}
    (returns : host.Returns store)
    (surroundings : host.Surroundings kept translated)
    (context : state.get .s11 = host.layout.context)
    (tlb : state.get .s9 = host.tlb)
    (fetched : instructionAt host.translator.decoder host.translator.elf
      (state.get .t3) = some inst) :
    ∃ result after,
      Dispatcher.rerouteStatic (host.dispatcher store) state = some result ∧
        host.Translating store result after := by
  have mapped := surroundings.mapped store
  obtain ⟨result, ran⟩ : ∃ result,
      Dispatcher.rerouteStatic (host.dispatcher store) state = some result := by
    refine Option.ne_none_iff_exists'.mp fun ran => ?_
    obtain ⟨called, fails, argument⟩ := Dispatcher.rerouteStatic_none
      mapped.follows.reroutes
      (fun pointer inContext =>
        (mapped.keepsContext pointer (context ▸ inContext)).1)
      returns.reroutes returns.updateBasicBlock ran
    rw [← argument] at fetched
    obtain ⟨returned, -, -, translates, -⟩ :=
      returns.translate called inst fetched
    rw [fails] at translates
    cases translates
  refine ⟨result, ?_⟩
  obtain ⟨address, looked, -, -⟩ := @Tlb.looked _ _ _ _ _ _ _ .static
    mapped tlb context (by simp) (by simp) ran
  rcases looked.outcome with ⟨hit, -, -⟩ | ⟨missed, translates, -⟩
  · exact ⟨store, ran, .found hit⟩
  · obtain ⟨called, returned, returning, argument, riscv⟩ := translates
    have isAddress : called.get .a1 = state.get .t3 := argument.trans address
    rw [← isAddress] at fetched
    obtain ⟨other, generate, after, otherReturning, generates, translates⟩ :=
      returns.translate called inst fetched
    obtain rfl := Option.some.inj (returning.symm.trans otherReturning)
    rw [argument, riscv] at translates
    exact ⟨after, ran, .translated missed generates translates⟩

/-- Another round follows unless the simulation ends. -/
theorem Holds.exists_round
    (surroundings : host.Surroundings kept translated)
    (holds : host.Holds blocks start entered)
    (returns : host.Returns entered.store) :
    host.Ends blocks start entered ∨
      ∃ event left, host.Round event entered left := by
  have extended := Extended.refl holds.translated
  rcases holds.exists_leaves surroundings extended with halts | ⟨target, final,
    leaves⟩
  · exact Or.inl (.halts halts)
  rcases holds.leaves surroundings extended leaves with halts | ⟨stop, reaches,
    represents, keeps, outcome⟩
  · exact Or.inl (.halts halts)
  rcases outcome with ⟨rfl, reached, -⟩ | ⟨direct, -⟩
  · cases fetched : instructionAt host.translator.decoder host.translator.elf
        (final.get addressDestination) with
    | none => exact Or.inl (.nowhere leaves fetched)
    | some inst =>
        obtain ⟨result, after, ran, translating⟩ := returns.rerouteStatic
          surroundings represents.context
          ((keeps.registers .s9 (by decide) (by decide)).trans
            holds.enters.tlb)
          fetched
        obtain ⟨linked, links⟩ :=
          updateBasicBlock_returns after (final.get .ra) result.riscv
        exact Or.inr ⟨_, _, .reroutes leaves ran translating links⟩
  · exact Or.inr ⟨_, _, .jumps leaves direct⟩

/-- In every run of the host, the code that is entered belongs to an address
that the machine gets to, and the host represents the machine there, up to the
code of an entry in which the machine halts.  If the functions of the dispatcher
return, the run goes on up to there. -/
theorem run_simulates
    (surroundings : host.Surroundings kept translated)
    (holds : host.Holds blocks start entered)
    (run : Relation.ReflTransGen host.Suited entered left) :
    (∃ others stop, host.Simulates blocks start entered others stop left ∧
      (host.Returns left.store -> host.Ends others stop left ∨
        ∃ event further, host.Round event left further)) ∨
      ∃ middle others stop, Relation.ReflTransGen host.Suited entered middle ∧
        Relation.TransGen host.Suited middle left ∧
        host.Simulates blocks start entered others stop middle ∧
        host.Ends others stop middle := by
  suffices simulated :
      (∃ others stop, host.Simulates blocks start entered others stop left) ∨
        ∃ middle others stop, Relation.ReflTransGen host.Suited entered middle ∧
          Relation.TransGen host.Suited middle left ∧
          host.Simulates blocks start entered others stop middle ∧
          host.Ends others stop middle by
    refine simulated.imp_left ?_
    rintro ⟨others, stop, simulates⟩
    exact ⟨others, stop, simulates, simulates.holds.exists_round surroundings⟩
  induction run with
  | refl =>
      exact Or.inl ⟨blocks, start, Relation.ReflTransGen.refl, holds,
        fun _ _ => id⟩
  | @tail between left earlier round inductionHypothesis =>
      rcases inductionHypothesis with ⟨others, stop, simulates⟩ |
        ⟨middle, others, stop, toMiddle, onward, simulates, ends⟩
      · rcases simulates.holds.round surroundings round with
          ends | ⟨next, further, reaches, holds, serves⟩
        · exact Or.inr ⟨between, others, stop, earlier,
            Relation.TransGen.single round, simulates, ends⟩
        · exact Or.inl ⟨further, next,
            simulates.reaches.trans reaches.to_reflTransGen, holds,
            fun _ _ served => serves _ _ (simulates.serves _ _ served)⟩
      · exact Or.inr ⟨middle, others, stop, toMiddle, onward.tail round,
          simulates, ends⟩

end Runs

end Rounds

end Host

/-! ## A loop on the host -/

/-- No memory is mapped. -/
def emptyLayout : Layout where
  mapped _ := false
  context := 0x1000
  table := 0x2000
  tableAligned := by decide
  apart := by simp

/-- The machine that `clearState` represents. -/
def clearMachine : Machine where
  registers _ := 0
  flags := zeroFlags
  fsBase := 0
  gsBase := 0
  memory _ := 0

theorem represents_clear (known : Flag -> Prop) :
    Represents emptyLayout known clearMachine clearState where
  context := rfl
  table := rfl
  registers := by decide
  lazyFlags := by
    refine ⟨zeroFlags, fun flag => ?_, fun _ _ => rfl⟩
    cases flag with
    | zero => exact clearState_lazyFlags.zero
    | sign => exact clearState_lazyFlags.sign
    | parity => exact clearState_lazyFlags.parity
    | carry => exact ⟨.carryClear, by decide +kernel, rfl⟩
    | overflow => exact ⟨.overflowClear, by decide +kernel, rfl⟩
  fsBase := by decide +kernel
  gsBase := by decide +kernel
  memory := by simp [emptyLayout]

/-- The addresses of the loop. -/
def loopAddresses : List Word := [0x400000, 0x400002, 0x400005]

/-- The dispatcher asks the translator of the loop. -/
def loopTranslate (store : CodeStore) (called : State) : Option State :=
  match loopTranslator.translate store (called.get .a1) with
  | .ok (riscv, _) => some (called.set .a0 riscv)
  | .error _ => none

def loopHost : Host where
  translator := loopTranslator
  symbols := sampleSymbols
  layout := emptyLayout
  tlb := 0
  runtime _ _ := none
  dispatcher store :=
    { Dispatcher.idle with translate := loopTranslate store }

theorem loopTranslate_eq_some
    {store : CodeStore}
    {called returned : State}
    (translated : loopTranslate store called = some returned) :
    ∃ riscv, returned = called.set .a0 riscv := by
  rw [loopTranslate] at translated
  split at translated
  · exact ⟨_, (Option.some.inj translated).symm⟩
  · cases translated

/-- The functions keep all of the memory. -/
theorem loopHost_surroundings :
    loopHost.Surroundings (fun _ => True) (fun _ => True) where
  mapped store := {
    follows := {
      reroutes := (Dispatcher.idle_follows _).reroutes
      translate := {
        registers := by
          intro state after translated register saved
          obtain ⟨riscv, rfl⟩ := loopTranslate_eq_some translated
          rw [State.set_get_of_ne]
          rintro rfl
          exact absurd saved (by decide)
        bytes := by
          intro state after translated pointer _
          obtain ⟨riscv, rfl⟩ := loopTranslate_eq_some translated
          rfl }
      updateBasicBlock := (Dispatcher.idle_follows _).updateBasicBlock }
    keepsContext := fun _ _ => ⟨trivial, trivial⟩
    keepsTlb := fun _ _ => ⟨trivial, trivial⟩
    apart := Dispatcher.apart_of_sub (by decide) (by decide)
    aligned := by decide }
  guest := by
    intro pointer mapped
    cases mapped
  noReturn _ := rfl
  codeOutside := by
    intro address inCode
    obtain ⟨pointer, low, high, rfl⟩ := loop_inCode inCode
    have table : 4 * JumpTable.tableAddress.length ≤ 0x1000 := by decide
    refine table.trans ?_
    change 0x1000 ≤ (hostAddress pointer - 0x2000#64).toNat
    rw [hostAddress, BitVec.toNat_sub, BitVec.toNat_ofNat, BitVec.toNat_ofNat]
    omega

/-- No jump misses the code. -/
theorem loop_near
    {slot target : Word}
    (slotInCode : InCode loopTranslator.memory slot)
    (targetInCode : InCode loopTranslator.memory target) :
    ¬ OutOfReach (target - slot).toInt := by
  obtain ⟨first, firstLow, firstHigh, rfl⟩ := loop_inCode slotInCode
  obtain ⟨second, secondLow, secondHigh, rfl⟩ := loop_inCode targetInCode
  unfold OutOfReach
  rw [BitVec.toInt_eq_toNat_cond, BitVec.toNat_sub, hostAddress, hostAddress,
    BitVec.toNat_ofNat, BitVec.toNat_ofNat]
  omega

/-- The machine runs around the loop. -/
theorem loop_steps
    {pc : Word}
    (inLoop : pc ∈ loopAddresses)
    (machine : Machine) :
    ∃ inst next after, instructionAt loopDecoder loopElf pc = some inst ∧
      Supported inst ∧ loopHost.step ⟨pc, machine⟩ = some ⟨next, after⟩ ∧
        next ∈ loopAddresses := by
  simp only [loopAddresses, List.mem_cons, List.not_mem_nil, or_false]
    at inLoop
  rcases inLoop with rfl | rfl | rfl
  · have fetched : instructionAt loopDecoder loopElf 0x400000 = some
        (transformInstruction (Fadec.Encoding.cmpEaxEax.decodedAt 0x400000)) :=
      by decide +kernel
    have isReg : ((transformInstruction (Fadec.Encoding.cmpEaxEax.decodedAt
        0x400000)).getOperand 1).isImm ≠ true := by
      decide
    exact ⟨_, 0x400002, _, fetched, .plain (.comparison .cmp rfl
      ⟨⟨⟨rfl, Or.inl rfl, rfl, rfl⟩, rfl⟩, fun isImm => absurd isImm isReg⟩
      (fun _ isImm => absurd isImm isReg)), step_straight fetched rfl,
      by decide⟩
  · have fetched : instructionAt loopDecoder loopElf 0x400002 = some
        (transformInstruction (Fadec.Encoding.setzAl.decodedAt 0x400002)) :=
      by decide +kernel
    exact ⟨_, 0x400005, _, fetched, .plain (.conditionalSet .z 0 rfl rfl),
      step_straight fetched rfl, by decide⟩
  · have fetched : instructionAt loopDecoder loopElf 0x400005 = some
        (transformInstruction (jmpBack.decodedAt 0x400005)) :=
      by decide +kernel
    exact ⟨_, 0x400000, _, fetched, .jump rfl rfl,
      step_jump fetched rfl rfl, by decide⟩

/-- The machine does not leave the loop. -/
theorem loop_reaches
    {start stop : Configuration}
    (inLoop : start.pc ∈ loopAddresses)
    (reaches : StateTransition.Reaches loopHost.step start stop) :
    stop.pc ∈ loopAddresses := by
  induction reaches with
  | refl => exact inLoop
  | @tail middle next _ isStep inductionHypothesis =>
      obtain ⟨_, _, _, -, -, steps, inLoop⟩ :=
        loop_steps inductionHypothesis middle.machine
      obtain rfl := Option.some.inj (isStep.symm.trans steps)
      exact inLoop

/-- Only the instructions of the loop are decoded. -/
theorem loop_of_fetched
    {pc : Word}
    {inst : Instruction}
    (fetched : instructionAt loopDecoder loopElf pc = some inst) :
    pc ∈ loopAddresses := by
  obtain ⟨entry, decoded, -⟩ := instructionAt_eq_some fetched
  obtain ⟨encoding, found, -⟩ := Option.map_eq_some_iff.mp decoded
  have matched := List.find?_some found
  obtain ⟨rest, isPrefix⟩ := List.isPrefixOf_iff_prefix.mp matched
  have heads : ∀ encoding ∈ [Fadec.Encoding.cmpEaxEax, .setzAl, jmpBack],
      ∀ offset < 7, (loopElf.byte (0x400000 + BitVec.ofNat 64 offset) =
        encoding.head ->
          0x400000 + BitVec.ofNat 64 offset ∈ loopAddresses) ∧
            encoding.head ≠ 0 := by
    decide
  have head : loopElf.byte pc = encoding.head := by
    have first := congrArg (fun bytes => bytes[0]?) isPrefix
    simp only [Fadec.Encoding.bytes, List.cons_append,
      List.getElem?_cons_zero, Elf.codeBytes, List.getElem?_map] at first
    obtain ⟨index, isIndex, same⟩ := Option.map_eq_some_iff.mp first.symm
    obtain ⟨inRange, rfl⟩ := List.getElem?_eq_some_iff.mp isIndex
    rw [List.getElem_range, BitVec.add_zero] at same
    exact same
  have inside : (pc - 0x400000).toNat < 7 := by
    by_contra outside
    have zero : loopElf.byte pc = 0 := by
      simp only [loopElf, Elf.ofBytes, List.getD_eq_getElem?_getD]
      rw [List.getElem?_eq_none (Nat.le_of_not_lt outside), Option.getD_none]
    exact (heads encoding (List.mem_of_find?_eq_some found) 0
      (by decide)).2 (head.symm.trans zero)
  have isOffset : 0x400000 + BitVec.ofNat 64 (pc - 0x400000).toNat = pc := by
    rw [BitVec.ofNat_toNat, BitVec.setWidth_eq]
    exact add_sub_cancel _ _
  rw [← isOffset] at head ⊢
  exact (heads encoding (List.mem_of_find?_eq_some found) _ inside).1 head

/-- Every instruction of the loop is stored. -/
theorem loop_served
    {store : CodeStore}
    {blocks : List HostBlock}
    {riscv pc : Word}
    (translated : Translated loopTranslator sampleSymbols store blocks)
    (serves : Serves store blocks riscv 0x400000)
    (inLoop : pc ∈ loopAddresses) : ∃ served, Serves store blocks served pc := by
  have behind : ∀ {here next served : Word},
      (instructionAt loopDecoder loopElf here).map (fun inst =>
          (inst.endOfBlock, inst.following here)) = some (false, next) ->
        Serves store blocks served here ->
          ∃ served, Serves store blocks served next := by
    intro here next served found serves
    obtain ⟨inst, fetched, same⟩ := Option.map_eq_some_iff.mp found
    obtain ⟨continues, rfl⟩ := Prod.mk.inj same
    exact translated.serves_following serves fetched continues
  obtain ⟨second, servesSecond⟩ :=
    @behind _ 0x400002 _ (by decide +kernel) serves
  obtain ⟨third, servesThird⟩ :=
    @behind _ 0x400005 _ (by decide +kernel) servesSecond
  simp only [loopAddresses, List.mem_cons, List.not_mem_nil, or_false]
    at inLoop
  rcases inLoop with rfl | rfl | rfl
  · exact ⟨riscv, serves⟩
  · exact ⟨second, servesSecond⟩
  · exact ⟨third, servesThird⟩

/-- The simulation does not end in the loop. -/
theorem loop_not_ends
    {blocks : List HostBlock}
    {start : Configuration}
    {entered : HostState}
    (holds : loopHost.Holds blocks start entered)
    (inLoop : start.pc ∈ loopAddresses) : ¬ loopHost.Ends blocks start entered := by
  have notHalts : ¬ loopHost.Halts blocks start entered := by
    rintro ⟨index, place, block, -, -, halts⟩
    obtain ⟨stop, reaches, stuck⟩ := halts.reaches
    obtain ⟨inst, next, after, fetched, supported, steps, -⟩ :=
      loop_steps (loop_reaches inLoop reaches) stop.machine
    exact stuck
      ⟨inst, fetched, supported, Option.isSome_iff_exists.mpr ⟨_, steps⟩⟩
  rintro (halts | ⟨leaves, nothing⟩)
  · exact notHalts halts
  · obtain ⟨stop, reaches, -, -, outcome⟩ :=
      (holds.leaves loopHost_surroundings (.refl holds.translated)
        leaves).resolve_left notHalts
    obtain ⟨-, reached, -⟩ | ⟨notEntry, -⟩ := outcome
    · obtain ⟨inst, -, -, fetched, -⟩ := loop_steps
        (loop_reaches inLoop reaches.to_reflTransGen) stop.machine
      rw [reached] at nothing
      exact absurd (nothing.symm.trans fetched) (Option.some_ne_none _).symm
    · exact absurd rfl notEntry

/-- The translation of an instruction of the loop finds it. -/
theorem loop_found
    {store : CodeStore}
    {blocks : List HostBlock}
    {riscv pc : Word}
    (translated : Translated loopTranslator sampleSymbols store blocks)
    (serves : Serves store blocks riscv 0x400000)
    (inLoop : pc ∈ loopAddresses) :
    ∃ served, served ≠ 0 ∧ store.find loopElf pc = .ok served ∧
      loopTranslator.translate store pc = .ok (served, store) := by
  have executable : loopAddresses.all (fun pc =>
      decide (loopTranslator.Executable pc)) = true := by
    decide +kernel
  obtain ⟨served, servesPc⟩ := loop_served translated serves inLoop
  obtain ⟨found, notNull⟩ := translated.find_of_serves servesPc
  exact ⟨served, notNull, found,
    translated.translate_of_serves servesPc
      (of_decide_eq_true (List.all_eq_true.mp executable pc inLoop))⟩

theorem loopHost_returns
    {store : CodeStore}
    {blocks : List HostBlock}
    {riscv : Word}
    (translated : Translated loopTranslator sampleSymbols store blocks)
    (serves : Serves store blocks riscv 0x400000) : loopHost.Returns store where
  reroutes _ := Option.some_ne_none _
  translate called inst fetched := by
    obtain ⟨served, -, -, translates⟩ :=
      loop_found translated serves (loop_of_fetched fetched)
    refine ⟨called.set .a0 served, loopTranslator.generate, store, ?_,
      fun _ => ⟨0, rfl⟩, ?_⟩
    · change loopTranslate store called = _
      rw [loopTranslate, translates]
    · rw [State.set_get_self _ _ (by decide)]
      exact translates
  updateBasicBlock _ := Option.some_ne_none _

/-- Nothing of the loop is translated again. -/
theorem loop_suits
    {store : CodeStore}
    {blocks : List HostBlock}
    {riscv pc : Word}
    (translated : Translated loopTranslator sampleSymbols store blocks)
    (serves : Serves store blocks riscv 0x400000)
    (inLoop : pc ∈ loopAddresses) : Suitable loopTranslator store pc := by
  obtain ⟨served, notNull, found, -⟩ := loop_found translated serves inLoop
  have known : store.find loopElf pc ≠ .ok 0 := by
    rw [found]
    exact fun zero => notNull (Except.ok.inj zero)
  exact ⟨fun unknown => absurd unknown known,
    fun unknown => absurd unknown known, fun unknown => absurd unknown known⟩

/-- The buffer is empty. -/
theorem loopHost_blank (slot : Tlb.Slot) :
    (Tlb.entries loopHost.tlb clearState.mem slot).1 = 0 := by
  rw [Tlb.entries_zero]
  · rfl
  · intro pointer inside
    have noField : ∀ field : Word, 0x800 ≤ field.toNat -> pointer ≠ field := by
      rintro field behind rfl
      rw [Dispatcher.Within, show loopHost.tlb = 0#64 from rfl,
        BitVec.sub_zero, Tlb.size] at inside
      omega
    simp only [clearState, if_neg (noField 0x1240 (by decide)),
      if_neg (noField 0x1242 (by decide))]

/-- The loop goes around on the host. -/
theorem run_simulates_loop :
    ∃ riscv store left blocks,
      loopTranslator.translate (.empty loopElf) 0x400000 =
        .ok (riscv, store) ∧
      loopHost.Holds blocks ⟨0x400000, clearMachine⟩
        ⟨riscv, clearState, store⟩ ∧
      loopHost.Suited ⟨riscv, clearState, store⟩ left ∧
      ∃ others stop,
        loopHost.Simulates blocks ⟨0x400000, clearMachine⟩
          ⟨riscv, clearState, store⟩ others stop left ∧
        ¬ loopHost.Ends others stop left ∧
        ∃ event further, loopHost.Round event left further := by
  obtain ⟨riscv, store, returned⟩ := translate_loop
  have inLoop : (0x400000 : Word) ∈ loopAddresses := by decide
  obtain ⟨blocks, holds⟩ : ∃ blocks, loopHost.Holds blocks
      ⟨0x400000, clearMachine⟩ ⟨riscv, clearState, store⟩ :=
    Host.holds_start (fun _ => ⟨0, rfl⟩) loop_suitable returned
      (represents_clear _) rfl loopHost_blank
  have translated := holds.translated
  have served := holds.enters.code
  have notEnds := loop_not_ends holds inLoop
  obtain ⟨event, left, round⟩ := (holds.exists_round loopHost_surroundings
    (loopHost_returns translated served)).resolve_left notEnds
  have suits := (holds.suits loopHost_surroundings round
    (fun stop reaches => loop_suits translated served
      (loop_reaches inLoop reaches))
    fun _ _ => loop_near).resolve_left notEnds
  refine ⟨riscv, store, left, blocks, returned, holds, ⟨event, round, suits⟩,
    ?_⟩
  rcases Host.run_simulates loopHost_surroundings holds
      (Relation.ReflTransGen.single ⟨event, round, suits⟩) with
    ⟨others, stop, simulates, goesOn⟩ |
      ⟨middle, others, stop, -, -, simulates, ends⟩
  · have stays := loop_not_ends simulates.holds
      (loop_reaches inLoop simulates.reaches)
    exact ⟨others, stop, simulates, stays,
      (goesOn (loopHost_returns simulates.holds.translated
        (simulates.serves _ _ served))).resolve_left stays⟩
  · exact absurd ends (loop_not_ends simulates.holds
      (loop_reaches inLoop simulates.reaches))

end Guest
end Oxtra

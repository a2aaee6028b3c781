import Oxtra.CodeGenerator.StoredCode
import Oxtra.CodeGenerator.UndeclaredFlags
import Oxtra.Guest.Blocks

/-!
# Translations of the guest

What the store holds between the calls of `translate`: blocks whose code goes
on as the machine does, with links between them.  Each call adds a block at
most, and `update_basic_block` links a slot to code that is stored.
-/

namespace Oxtra
namespace Guest

open RiscV
open Instruction
open CodeGenerator
open Addition (hostCode)
open CodeStore (nextStart)

/-! ## Code of a block -/

section Code

variable {decoder : Fadec.Decoder} {elf : Elf}
variable {generate : Instruction -> Option (List Inst)}
variable {serves other : Word -> Word -> Prop} {position addr : Word}
variable {instructions : List Instruction} {codes : List (List Inst)}

theorem Emitted.mono
    {inst : Instruction}
    {code : List Inst}
    (emitted : Emitted generate serves position inst code)
    (implies : ∀ target pc, serves target pc -> other target pc) :
    Emitted generate other position inst code := by
  cases emitted with
  | generated generated => exact .generated generated
  | conditional kind slot => exact .conditional kind (slot.mono implies)
  | jump kind slot => exact .jump kind (slot.mono implies)

theorem TranslatedFrom.mono
    (translated : TranslatedFrom decoder elf generate serves position addr
      instructions codes)
    (implies : ∀ target pc, serves target pc -> other target pc) :
    TranslatedFrom decoder elf generate other position addr instructions
      codes := by
  induction translated with
  | ends fetched emitted endOfBlock =>
      exact .ends fetched (emitted.mono implies) endOfBlock
  | falls fetched emitted continues served =>
      exact .falls fetched (emitted.mono implies) continues
        (implies _ _ served)
  | cons fetched emitted continues _ inductionHypothesis =>
      exact .cons fetched (emitted.mono implies) continues inductionHypothesis

theorem TranslatedFrom.length_eq
    (translated : TranslatedFrom decoder elf generate serves position addr
      instructions codes) : codes.length = instructions.length := by
  induction translated with
  | ends => rfl
  | falls => rfl
  | cons _ _ _ _ inductionHypothesis =>
      rw [List.length_cons, List.length_cons, inductionHypothesis]

/-- The first instruction is the one at the address. -/
theorem TranslatedFrom.head
    (translated : TranslatedFrom decoder elf generate serves position addr
      instructions codes) :
    ∃ first, instructions[0]? = some first ∧ first.address = addr := by
  cases translated with
  | ends fetched => exact ⟨_, rfl, (instructionAt_declared fetched).1⟩
  | falls fetched => exact ⟨_, rfl, (instructionAt_declared fetched).1⟩
  | cons fetched => exact ⟨_, rfl, (instructionAt_declared fetched).1⟩

/-- Where the code of an instruction of a block is. -/
def positionOf (start : Word) (codes : List (List Inst)) (index : Nat) : Word :=
  start + BitVec.ofNat 64 (4 * (codes.take index).flatten.length)

@[simp] theorem positionOf_zero (start : Word) (codes : List (List Inst)) :
    positionOf start codes 0 = start := by
  simp [positionOf]

theorem positionOf_succ
    (start : Word)
    (code : List Inst)
    (codes : List (List Inst))
    (index : Nat) :
    positionOf start (code :: codes) (index + 1) =
      positionOf (start + BitVec.ofNat 64 (4 * code.length)) codes index := by
  simp only [positionOf, List.take_succ_cons, List.flatten_cons,
    List.length_append, Nat.mul_add, BitVec.ofNat_add, BitVec.add_assoc]

theorem getElem?_singleton
    {inst found : Instruction}
    {index : Nat}
    (atIndex : [inst][index]? = some found) : index = 0 ∧ found = inst := by
  cases index with
  | zero => exact ⟨rfl, (Option.some.inj atIndex).symm⟩
  | succ index => cases atIndex

/-- The codes from an instruction of a block on. -/
theorem TranslatedFrom.drop
    {index : Nat}
    {inst : Instruction}
    (translated : TranslatedFrom decoder elf generate serves position addr
      instructions codes)
    (found : instructions[index]? = some inst) :
    TranslatedFrom decoder elf generate serves (positionOf position codes index)
      inst.address (instructions.drop index) (codes.drop index) := by
  induction translated generalizing index with
  | ends fetched emitted endOfBlock =>
      obtain ⟨rfl, rfl⟩ := getElem?_singleton found
      rw [positionOf_zero, (instructionAt_declared fetched).1]
      exact .ends fetched emitted endOfBlock
  | falls fetched emitted continues served =>
      obtain ⟨rfl, rfl⟩ := getElem?_singleton found
      rw [positionOf_zero, (instructionAt_declared fetched).1]
      exact .falls fetched emitted continues served
  | cons fetched emitted continues behind inductionHypothesis =>
      cases index with
      | zero =>
          obtain rfl := Option.some.inj found
          rw [positionOf_zero, (instructionAt_declared fetched).1]
          exact .cons fetched emitted continues behind
      | succ index =>
          rw [positionOf_succ]
          exact inductionHypothesis found

/-- The codes from an instruction of a block on may be replaced. -/
theorem TranslatedFrom.replace
    {index : Nat}
    {inst : Instruction}
    {same : List (List Inst)}
    (translated : TranslatedFrom decoder elf generate serves position addr
      instructions codes)
    (found : instructions[index]? = some inst)
    (replaced : TranslatedFrom decoder elf generate serves
      (positionOf position codes index) inst.address (instructions.drop index)
      same) :
    TranslatedFrom decoder elf generate serves position addr instructions
      (codes.take index ++ same) := by
  induction translated generalizing index with
  | ends fetched =>
      obtain ⟨rfl, rfl⟩ := getElem?_singleton found
      rwa [positionOf_zero, (instructionAt_declared fetched).1] at replaced
  | falls fetched =>
      obtain ⟨rfl, rfl⟩ := getElem?_singleton found
      rwa [positionOf_zero, (instructionAt_declared fetched).1] at replaced
  | cons fetched emitted continues _ inductionHypothesis =>
      cases index with
      | zero =>
          obtain rfl := Option.some.inj found
          rwa [positionOf_zero, (instructionAt_declared fetched).1] at replaced
      | succ index =>
          rw [positionOf_succ] at replaced
          exact .cons fetched emitted continues
            (inductionHypothesis found replaced)

/-- An instruction that ends its block has some code. -/
theorem generate_ne_nil
    {inst : Instruction}
    {symbols : HostSymbols}
    {entries : Nat}
    {code : List Inst}
    (generated : inst.generate symbols entries = some code)
    (ends : inst.instructionClass.endsBlock = true) : code ≠ [] := by
  have jumps : Jcc.generateJump inst ≠ [] := by
    rw [Jcc.generateJump]
    split
    · exact List.cons_ne_nil _ _
    · exact List.append_ne_nil_of_right_ne_nil _ (List.cons_ne_nil _ _)
  rw [Instruction.generate] at generated
  cases kind : inst.instructionClass <;> rw [kind] at ends generated <;>
    first
      | exact Bool.noConfusion ends
      | obtain rfl := Option.some.inj generated
  · exact jumps
  · exact List.append_ne_nil_of_right_ne_nil _ jumps
  · exact List.cons_ne_nil _ _
  · exact List.append_ne_nil_of_right_ne_nil _ (List.cons_ne_nil _ _)
  · exact List.append_ne_nil_of_right_ne_nil _ (List.cons_ne_nil _ _)

theorem TranslatedFrom.flatten_ne_nil
    {symbols : HostSymbols}
    (generates : Generates generate symbols)
    (translated : TranslatedFrom decoder elf generate serves position addr
      instructions codes) : codes.flatten ≠ [] := by
  induction translated with
  | @ends position addr inst code fetched emitted endOfBlock =>
      rw [List.flatten_singleton]
      have endsBlock : inst.instructionClass.endsBlock = true :=
        (instructionAt_declares fetched).2.2.symm.trans endOfBlock
      cases emitted with
      | generated generated =>
          obtain ⟨entries, same⟩ := generates inst
          exact generate_ne_nil (same.symm.trans generated) endsBlock
      | conditional kind =>
          rw [kind] at endsBlock
          cases endsBlock
      | jump _ slot =>
          rw [← List.length_pos_iff, slot.length_eq]
          decide
  | falls =>
      rw [List.flatten_singleton, farJump]
      simp
  | cons _ _ _ _ inductionHypothesis =>
      rw [List.flatten_cons]
      exact List.append_ne_nil_of_right_ne_nil _ inductionHypothesis

end Code

/-! ## Stored blocks -/

/-- A block with the updates that are assigned to its instructions, and the code
of each of them. -/
structure HostBlock where
  start : Word
  instructions : List Instruction
  codes : List (List Inst)

/-- What the store takes up for an instruction. -/
def additionOf (inst : Instruction) (code : List Inst) : Addition where
  size := BitVec.ofNat 8 inst.size
  code := code.map Inst.encode

/-- The block as the store holds it. -/
def HostBlock.stored (block : HostBlock) : GuestBlock where
  start := block.start
  instructions := List.zipWith additionOf block.instructions block.codes

theorem hostCode_zipWith
    {instructions : List Instruction}
    {codes : List (List Inst)}
    (lengths : codes.length = instructions.length) :
    hostCode (List.zipWith additionOf instructions codes) =
      codes.flatten.map Inst.encode := by
  induction instructions generalizing codes with
  | nil =>
      obtain rfl := List.length_eq_zero_iff.mp lengths
      rfl
  | cons inst rest inductionHypothesis =>
      cases codes with
      | nil => cases lengths
      | cons code further =>
          rw [List.zipWith_cons_cons, Addition.hostCode_cons,
            inductionHypothesis (Nat.succ.inj lengths), List.flatten_cons,
            List.map_append]
          rfl

theorem length_hostCode_take
    {instructions : List Instruction}
    {codes : List (List Inst)}
    (lengths : codes.length = instructions.length)
    (index : Nat) :
    (hostCode ((List.zipWith additionOf instructions codes).take
      index)).length = (codes.take index).flatten.length := by
  rw [List.take_zipWith, hostCode_zipWith
    (by rw [List.length_take, List.length_take, lengths]), List.length_map]

theorem zipWith_sameShape
    {start : Word}
    {instructions : List Instruction}
    {first second : List (List Inst)}
    (lengths : second.map List.length = first.map List.length) :
    (HostBlock.mk start instructions first).stored.SameShape
      (HostBlock.mk start instructions second).stored := by
  refine ⟨rfl, ?_⟩
  change (List.zipWith additionOf instructions second).map Addition.shape =
    (List.zipWith additionOf instructions first).map Addition.shape
  have shapes : ∀ codes : List (List Inst),
      (List.zipWith additionOf instructions codes).map Addition.shape =
        List.zipWith (fun inst length => (BitVec.ofNat 8 inst.size, length))
          instructions (codes.map List.length) := by
    intro codes
    rw [List.map_zipWith, List.zipWith_map_right]
    simp only [Addition.shape, additionOf, List.length_map]
  rw [shapes, shapes, lengths]

/-- Code of the host that belongs to an instruction of a stored block. -/
def Serves
    (store : CodeStore)
    (blocks : List HostBlock)
    (riscv pc : Word) : Prop :=
  ∃ index block place inst, blocks[index]? = some block ∧
    block.instructions[place]? = some inst ∧ inst.address = pc ∧
      riscv = positionOf (store.block index).riscvStart block.codes place

/-- The code of a block goes on as the machine does, and the updates that the
guest may look at are not eliminated. -/
structure HostBlock.Sound
    (translator : Translator)
    (symbols : HostSymbols)
    (serves : Word -> Word -> Prop)
    (riscvStart : Word)
    (block : HostBlock) : Prop where
  code : ∃ generate, Generates generate symbols ∧
    TranslatedFrom translator.decoder translator.elf generate serves riscvStart
      block.start block.instructions block.codes
  assigned : ∀ inst ∈ block.instructions, ∀ addr,
    instructionAt translator.decoder translator.elf addr =
        some (declared inst) ->
      UpdatesExposed translator.decoder translator.elf addr inst
  quiet : ∀ inst ∈ block.instructions, QuietNot inst

/-- What the store holds between the calls of `translate`. -/
structure Translated
    (translator : Translator)
    (symbols : HostSymbols)
    (store : CodeStore)
    (blocks : List HostBlock) : Prop where
  stored : Stored translator store (blocks.map HostBlock.stored)
  apart : store.CodeApart (blocks.map HostBlock.stored)
  sound : ∀ index (block : HostBlock), blocks[index]? = some block ->
    block.Sound translator symbols (Serves store blocks)
      (store.block index).riscvStart

section Store

variable {translator : Translator} {symbols : HostSymbols}
variable {store after : CodeStore} {blocks : List HostBlock}

theorem Translated.empty :
    Translated translator symbols (.empty translator.elf) [] where
  stored := stored_empty
  apart := by
    rintro first second pointer ⟨block, found, -⟩
    cases found
  sound := by
    intro index block found
    cases found

/-- What is stored does not depend on how code is generated. -/
theorem Translated.withGenerate
    (translated : Translated translator symbols store blocks)
    (generate : Instruction -> Option (List Inst)) :
    Translated { translator with generate } symbols store blocks where
  stored := ⟨translated.stored.held, translated.stored.placed,
    translated.stored.nonempty, translated.stored.disjoint⟩
  apart := translated.apart
  sound index block found := by
    obtain ⟨code, assigned, quiet⟩ := translated.sound index block found
    exact ⟨code, assigned, quiet⟩

section Entry

variable {index place : Nat} {block : HostBlock}
variable (translated : Translated translator symbols store blocks)
variable (found : blocks[index]? = some block)

include translated found

theorem Translated.entry :
    CodeStore.StoresBlock translator.memory store (store.block index)
      block.stored :=
  translated.stored.held.stored index block.stored
    (by rw [List.getElem?_map, found, Option.map_some])

theorem Translated.length_eq :
    block.codes.length = block.instructions.length := by
  obtain ⟨generate, -, code⟩ := (translated.sound index block found).code
  exact code.length_eq

theorem Translated.hostCode_eq :
    hostCode block.stored.instructions =
      block.codes.flatten.map Inst.encode :=
  hostCode_zipWith (translated.length_eq found)

/-- The pointer to the code of an instruction. -/
theorem Translated.positionOf_eq :
    positionOf (store.block index).riscvStart block.codes place =
      hostAddress (codePointer (store.block index).riscvStart +
        (block.codes.take place).flatten.length) := by
  rw [← CodeStore.hostAddress_add, ← (translated.entry found).aligned]
  rfl

/-- The code from an instruction on lies in the memory of the host. -/
theorem Translated.holdsCode :
    HoldsCode store.words
      (positionOf (store.block index).riscvStart block.codes place)
      (block.codes.drop place).flatten := by
  have entry := translated.entry found
  have code := entry.code
  have codeLt := entry.code_lt
  have split : block.codes.flatten =
      (block.codes.take place).flatten ++ (block.codes.drop place).flatten := by
    rw [← List.flatten_append, List.take_append_drop]
  rw [translated.hostCode_eq found, split] at code codeLt
  rw [List.length_map, List.length_append] at codeLt
  rw [List.map_append] at code
  have behind := code.append_right
  rw [List.length_map] at behind
  rw [translated.positionOf_eq found]
  exact CodeStore.holdsCode_words behind (by omega)

end Entry

/-- An address in the memory of the code. -/
def InCode (memory : CodeStore.Memory) (address : Word) : Prop :=
  ∃ index region pointer, memory.code.region index = some region ∧
    region ≤ pointer ∧ pointer < region + memory.instructionListSize ∧
      address = hostAddress pointer

/-- The memory of the code is apart from the jump table. -/
def Layout.CodeOutside (layout : Layout) (memory : CodeStore.Memory) : Prop :=
  ∀ address, InCode memory address ->
    4 * JumpTable.tableAddress.length ≤ (address - layout.table).toNat

/-- Where code behind that of some instructions of a block is. -/
theorem Translated.inCode
    {index place offset : Nat}
    {block : HostBlock}
    (translated : Translated translator symbols store blocks)
    (found : blocks[index]? = some block)
    (inside : offset < (block.codes.drop place).flatten.length) :
    InCode translator.memory
      (positionOf (store.block index).riscvStart block.codes place +
        BitVec.ofNat 64 (4 * offset)) := by
  have entry := translated.entry found
  have split : block.codes.flatten.length =
      (block.codes.take place).flatten.length +
        (block.codes.drop place).flatten.length := by
    rw [← List.length_append, ← List.flatten_append, List.take_append_drop]
  have bound : (block.codes.take place).flatten.length + offset <
      (hostCode block.stored.instructions).length := by
    rw [translated.hostCode_eq found, List.length_map, split]
    omega
  obtain ⟨⟨number, region, -, isRegion, low, high, -⟩, -⟩ :=
    entry.code _ _ (List.getElem?_eq_getElem bound)
  refine ⟨number, region, _, isRegion, low, high, ?_⟩
  rw [translated.positionOf_eq found, ← Nat.add_assoc]
  exact CodeStore.hostAddress_add _ _

/-- Code that belongs to an address is in the memory of the code. -/
theorem Translated.serves_inCode
    {riscv pc : Word}
    (translated : Translated translator symbols store blocks)
    (serves : Serves store blocks riscv pc) :
    InCode translator.memory riscv := by
  obtain ⟨index, block, place, inst, found, atPlace, -, rfl⟩ := serves
  obtain ⟨generate, generates, code⟩ := (translated.sound index block found).code
  have nonempty := (code.drop atPlace).flatten_ne_nil generates
  have here := translated.inCode found (List.length_pos_iff.mpr nonempty)
  rwa [Nat.mul_zero, BitVec.add_zero] at here

theorem Translated.storedCode
    {layout : Layout}
    {riscv pc : Word}
    (translated : Translated translator symbols store blocks)
    (outside : layout.CodeOutside translator.memory)
    (serves : Serves store blocks riscv pc) : layout.StoredCode riscv := by
  have here := translated.serves_inCode serves
  refine ⟨?_, outside riscv here⟩
  obtain ⟨_, _, pointer, -, -, -, rfl⟩ := here
  exact CodeStore.hostAddress_aligned pointer

/-! ## A new block -/

/-- What follows the last instruction of a block in front of an address. -/
def Connects
    (serves : Word -> Word -> Prop)
    (stop : Word)
    (last : Instruction)
    (connection : List Inst) : Prop :=
  last.endOfBlock = true ∧ connection = [] ∨
    last.endOfBlock = false ∧
      ∃ target, serves target stop ∧ connection = farJump target

theorem addGenerated_cons
    {connection : List Inst}
    {index : Nat}
    {inst : Instruction}
    {rest : List Instruction}
    (added : translator.addGenerated connection index store (inst :: rest) =
      .ok after) :
    ∃ code next, translator.generate inst = some code ∧
      (code ++ if rest.isEmpty then connection else []).length ≤
        maxRiscvInstructions ∧
      store.addInstruction translator.elf translator.memory index inst.address
          (BitVec.ofNat 8 inst.size)
          ((code ++ if rest.isEmpty then connection else []).map
            Inst.encode) = .ok next ∧
      translator.addGenerated connection index next rest = .ok after := by
  rw [Translator.addGenerated] at added
  generalize (if rest.isEmpty then connection else []) = connected at added ⊢
  rw [Translator.batch] at added
  cases generated : translator.generate inst with
  | none =>
      rw [generated] at added
      cases added
  | some code =>
      simp only [generated, bind, Except.bind] at added
      split at added
      · cases added
      · rename_i words batched
        split at batched
        · cases batched
        · rename_i fits
          obtain rfl := Except.ok.inj batched
          split at added
          · cases added
          · rename_i next addedFirst
            exact ⟨code, next, rfl, Nat.le_of_not_lt fits, addedFirst, added⟩

theorem addInstructions_cons
    {next : CodeStore}
    {index : Nat}
    {address : Word}
    {addition : Addition}
    {rest : List Addition}
    (addedFirst : store.addInstruction translator.elf translator.memory index
      address addition.size addition.code = .ok next)
    (addedRest : CodeStore.addInstructions translator.elf translator.memory
      index next (address + addition.size.setWidth 64) rest = .ok after) :
    CodeStore.addInstructions translator.elf translator.memory index store
      address (addition :: rest) = .ok after := by
  rw [CodeStore.addInstructions, addedFirst]
  exact addedRest

/-- The size of an instruction that lies in the image. -/
theorem additionOf_encodable
    {decoder : Fadec.Decoder}
    {elf : Elf}
    {addr : Word}
    {inst : Instruction}
    {code : List Inst}
    (fetched : instructionAt decoder elf addr = some (declared inst))
    (fits : code.length ≤ maxRiscvInstructions) :
    (additionOf inst code).Encodable ∧
      (additionOf inst code).size.toNat = inst.size := by
  obtain ⟨-, -, sizePos, sizeLe, -⟩ := instructionAt_declared fetched
  have size : (BitVec.ofNat 8 inst.size).toNat = inst.size := by
    rw [Fadec.maxInstructionSize] at sizeLe
    rw [BitVec.toNat_ofNat]
    omega
  refine ⟨⟨?_, ?_, ?_⟩, size⟩
  · rw [additionOf, size]
    exact sizePos
  · rw [additionOf, size]
    exact sizeLe
  · rw [additionOf, List.length_map]
    exact fits

/-- The instructions of a new block with their codes, as the store takes them
up. -/
theorem addGenerated_codes
    {connection : List Inst}
    {serves : Word -> Word -> Prop}
    {index : Nat}
    {addr stop : Word}
    {front : List Instruction}
    {last : Instruction}
    (consecutive : Consecutive translator.decoder translator.elf addr
      ((front ++ [last]).map declared) stop)
    (continues : ∀ inst ∈ front, inst.endOfBlock = false)
    (connects : Connects serves stop last connection)
    (added : translator.addGenerated connection index store (front ++ [last]) =
      .ok after)
    (position : Word) :
    ∃ codes, TranslatedFrom translator.decoder translator.elf
        translator.generate serves position addr (front ++ [last]) codes ∧
      (∀ addition ∈ List.zipWith additionOf (front ++ [last]) codes,
        addition.Encodable) ∧
      addr.toNat + Addition.guestLength
        (List.zipWith additionOf (front ++ [last]) codes) = stop.toNat ∧
      CodeStore.addInstructions translator.elf translator.memory index store
        addr (List.zipWith additionOf (front ++ [last]) codes) = .ok after := by
  induction front generalizing addr store position with
  | nil =>
      obtain ⟨fetched, rfl⟩ := consecutive
      obtain ⟨code, next, generated, fits, addedFirst, rest⟩ :=
        addGenerated_cons added
      obtain ⟨encodable, size⟩ := additionOf_encodable fetched fits
      obtain ⟨address, -, -, -, sizeEq, following, -⟩ :=
        instructionAt_declared fetched
      obtain rfl := Except.ok.inj rest
      rw [address] at addedFirst
      refine ⟨[code ++ connection], ?_, ?_, ?_, ?_⟩
      · rcases connects with ⟨ends, rfl⟩ | ⟨continues, target, served, rfl⟩
        · rw [List.append_nil]
          exact .ends fetched (.generated generated) ends
        · exact .falls fetched (.generated generated) continues served
      · intro addition member
        obtain rfl := List.mem_singleton.mp member
        exact encodable
      · change addr.toNat + ((additionOf last _).size.toNat + 0) =
          (last.following addr).toNat
        rw [following]
        exact congrArg (addr.toNat + ·) size
      · exact addInstructions_cons addedFirst rfl
  | cons inst rest inductionHypothesis =>
      obtain ⟨fetched, behind⟩ := consecutive
      simp only [List.forall_mem_cons] at continues
      obtain ⟨code, next, generated, fits, addedFirst, addedRest⟩ :=
        addGenerated_cons added
      rw [if_neg (by simp), List.append_nil] at fits addedFirst
      obtain ⟨encodable, size⟩ := additionOf_encodable fetched fits
      obtain ⟨address, -, -, -, sizeEq, following, -⟩ :=
        instructionAt_declared fetched
      rw [address] at addedFirst
      obtain ⟨codes, translated, encodableRest, extent, inserted⟩ :=
        inductionHypothesis behind continues.2 addedRest
          (position + BitVec.ofNat 64 (4 * code.length))
      refine ⟨code :: codes, .cons fetched (.generated generated) continues.1
        translated, ?_, ?_, addInstructions_cons addedFirst ?_⟩
      · intro addition member
        rcases List.mem_cons.mp member with rfl | later
        · exact encodable
        · exact encodableRest addition later
      · change addr.toNat + ((additionOf inst code).size.toNat + _) = _
        have after : ((declared inst).following addr).toNat =
            addr.toNat + inst.size := following
        rw [size, ← Nat.add_assoc, ← after]
        exact extent
      · change CodeStore.addInstructions _ _ _ _
          (addr + (BitVec.ofNat 8 inst.size).setWidth 64) _ = _
        rw [sizeEq]
        exact inserted

end Store

section Built

variable {translator : Translator} {store : CodeStore} {addr : Word}
variable {block : DecodedBlock} {instructions : List Instruction}

theorem connection_of_ends
    (ends : block.reachesNextBlock = false) :
    translator.connection store addr block = [] := by
  unfold Translator.connection
  rw [ends]
  cases store.getNextBlock translator.elf addr <;> rfl

variable (built : buildInstructions translator.decoder translator.elf
  translator.depth store addr = .ok (block, instructions))

include built

/-- The instructions of a block as they were decoded. -/
theorem built_declared :
    instructions.map declared = block.instructions := by
  obtain ⟨describes, -⟩ := buildInstructions_cases built
  rw [(buildInstructions_describes built).2]
  exact map_declared_assignUpdates describes

/-- No instruction of a block ends it, if it ends at the next stored one. -/
theorem built_continues
    (reaches : block.reachesNextBlock = true) :
    ∀ inst ∈ instructions, inst.endOfBlock = false := by
  obtain ⟨describes, -⟩ := buildInstructions_cases built
  intro inst member
  have inside : declared inst ∈ block.instructions := by
    rw [← built_declared built]
    exact List.mem_map_of_mem member
  rw [← List.dropLast_append_getLast describes.nonempty] at inside
  rcases List.mem_append.mp inside with inFront | atEnd
  · exact describes.front_continues (declared inst) inFront
  · have ends := describes.last_endOfBlock
    rw [reaches, ← List.mem_singleton.mp atEnd] at ends
    exact ends

/-- Otherwise the last instruction does. -/
theorem built_ends
    (reaches : block.reachesNextBlock = false)
    {front : List Instruction}
    {last : Instruction}
    (split : instructions = front ++ [last]) :
    (∀ inst ∈ front, inst.endOfBlock = false) ∧ last.endOfBlock = true := by
  obtain ⟨describes, -⟩ := buildInstructions_cases built
  have parts : block.instructions = front.map declared ++ [declared last] := by
    rw [← built_declared built, split, List.map_append]
    rfl
  constructor
  · intro inst member
    refine describes.front_continues (declared inst) ?_
    rw [parts, List.dropLast_concat]
    exact List.mem_map_of_mem member
  · have ends := describes.last_endOfBlock
    simp only [parts, List.getLast_append_singleton, reaches] at ends
    exact ends

end Built

/-! ## Calls of the translation -/

section Calls

variable {translator : Translator} {symbols : HostSymbols}
variable {store after : CodeStore} {blocks further : List HostBlock}
variable {addr riscv : Word}

/-- What `translate` returns. -/
theorem translate_result
    (returned : translator.translate store addr = .ok (riscv, after)) :
    translator.Executable addr ∧
      (after = store ∧ store.find translator.elf addr = .ok riscv ∧ riscv ≠ 0 ∨
        store.find translator.elf addr = .ok 0 ∧
          ∃ block instructions,
            buildInstructions translator.decoder translator.elf
                translator.depth store addr = .ok (block, instructions) ∧
              translator.addGenerated (translator.connection store addr block)
                store.createBlock.1 store.createBlock.2 instructions =
                  .ok after ∧
              riscv = (after.block store.createBlock.1).riscvStart) := by
  rw [Translator.translate] at returned
  split at returned
  case isFalse => cases returned
  case isTrue executable =>
    refine ⟨executable, ?_⟩
    cases known : store.find translator.elf addr with
    | error fault => simp [known] at returned
    | ok riscvCode =>
        simp only [known] at returned
        split at returned
        · rename_i notNull
          obtain ⟨rfl, rfl⟩ := Prod.mk.inj (Except.ok.inj returned)
          exact Or.inl ⟨rfl, rfl, notNull⟩
        · rename_i zero
          obtain rfl := not_not.mp zero
          refine Or.inr ⟨rfl, ?_⟩
          rw [Translator.translateBlock] at returned
          cases built : buildInstructions translator.decoder translator.elf
              translator.depth store addr with
          | error fault => simp [built] at returned
          | ok result =>
              obtain ⟨block, instructions⟩ := result
              refine ⟨block, instructions, rfl, ?_⟩
              simp only [built] at returned
              cases added : translator.addGenerated
                  (translator.connection store addr block) store.createBlock.1
                  store.createBlock.2 instructions with
              | error fault =>
                  rw [added] at returned
                  cases returned
              | ok next =>
                  rw [added] at returned
                  obtain ⟨rfl, rfl⟩ := Prod.mk.inj (Except.ok.inj returned)
                  exact ⟨rfl, rfl⟩

theorem serves_append
    {pc : Word}
    (serves : Serves store blocks riscv pc)
    (same : ∀ index < blocks.length, after.block index = store.block index) :
    Serves after (blocks ++ further) riscv pc := by
  obtain ⟨index, block, place, inst, found, atPlace, address, rfl⟩ := serves
  have inside := (List.getElem?_eq_some_iff.mp found).1
  refine ⟨index, block, place, inst, ?_, atPlace, address, ?_⟩
  · rw [List.getElem?_append_left inside, found]
  · rw [same index inside]

theorem additionOf_size
    {decoder : Fadec.Decoder}
    {elf : Elf}
    {inst : Instruction}
    (code : List Inst)
    (fetched : instructionAt decoder elf addr = some (declared inst)) :
    (additionOf inst code).size.toNat = inst.size :=
  (@additionOf_encodable decoder elf addr inst [] fetched
    (Nat.zero_le _)).2

/-- Where an instruction of a block lies in the image. -/
theorem TranslatedFrom.address_eq
    {decoder : Fadec.Decoder}
    {elf : Elf}
    {generate : Instruction -> Option (List Inst)}
    {serves : Word -> Word -> Prop}
    {position : Word}
    {instructions : List Instruction}
    {codes : List (List Inst)}
    {index : Nat}
    {inst : Instruction}
    (translated : TranslatedFrom decoder elf generate serves position addr
      instructions codes)
    (found : instructions[index]? = some inst) :
    inst.address.toNat = addr.toNat + Addition.guestLength
      ((List.zipWith additionOf instructions codes).take index) := by
  induction translated generalizing index with
  | ends fetched =>
      obtain ⟨rfl, rfl⟩ := getElem?_singleton found
      rw [(instructionAt_declared fetched).1]
      rfl
  | falls fetched =>
      obtain ⟨rfl, rfl⟩ := getElem?_singleton found
      rw [(instructionAt_declared fetched).1]
      rfl
  | @cons position addr first code rest further fetched _ _ _
      inductionHypothesis =>
      cases index with
      | zero =>
          obtain rfl := Option.some.inj found
          rw [(instructionAt_declared fetched).1]
          rfl
      | succ index =>
          obtain ⟨-, -, -, -, -, following, -⟩ := instructionAt_declared fetched
          have next : ((declared first).following addr).toNat =
              addr.toNat + first.size := following
          have behind := inductionHypothesis found
          rw [List.zipWith_cons_cons, List.take_succ_cons,
            Addition.guestLength_cons, additionOf_size code fetched,
            ← Nat.add_assoc, ← next]
          exact behind

/-- An address that the store finds is served. -/
theorem Translated.serves_of_find
    (translated : Translated translator symbols store blocks)
    (inside : translator.elf.Contains addr)
    (found : store.find translator.elf addr = .ok riscv)
    (notNull : riscv ≠ 0) : Serves store blocks riscv addr := by
  obtain ⟨index, guest, front, addition, atIndex, starts, rfl⟩ :=
    translated.stored.held.startsAt_of_find translated.stored.placed
      translated.stored.disjoint inside found notNull
  obtain ⟨block, blockFound, rfl⟩ := by
    rw [List.getElem?_map, Option.map_eq_some_iff] at atIndex
    exact atIndex
  obtain ⟨⟨back, split⟩, address⟩ := starts
  obtain ⟨generate, -, code⟩ := (translated.sound index block blockFound).code
  have lengths := code.length_eq
  have frontEq : front = (List.zipWith additionOf block.instructions
      block.codes).take front.length := by
    have taken := congrArg (List.take front.length) split
    rw [List.take_left] at taken
    exact taken.symm
  have short : front.length < block.instructions.length := by
    have whole := congrArg List.length split
    change (List.zipWith additionOf block.instructions block.codes).length = _
      at whole
    rw [List.length_zipWith, List.length_append, List.length_cons] at whole
    omega
  have atPlace := List.getElem?_eq_getElem short
  refine ⟨index, block, front.length, _, blockFound, atPlace, ?_, ?_⟩
  · apply BitVec.eq_of_toNat_eq
    rw [code.address_eq atPlace, ← frontEq]
    exact address.symm
  · have frontCode := length_hostCode_take lengths front.length
    rw [← frontEq] at frontCode
    rw [positionOf, frontCode]

/-- What is served is found. -/
theorem Translated.find_of_serves
    {pc : Word}
    (translated : Translated translator symbols store blocks)
    (serves : Serves store blocks riscv pc) :
    store.find translator.elf pc = .ok riscv ∧ riscv ≠ 0 := by
  obtain ⟨index, block, place, inst, found, atPlace, rfl, rfl⟩ := serves
  obtain ⟨generate, -, code⟩ := (translated.sound index block found).code
  have lengths := code.length_eq
  have entry := translated.entry found
  obtain ⟨short, -⟩ := List.getElem?_eq_some_iff.mp atPlace
  have inBoth : place < (List.zipWith additionOf block.instructions
      block.codes).length := by
    rw [List.length_zipWith, lengths, Nat.min_self]
    exact short
  have starts : block.stored.StartsAt inst.address
      ((List.zipWith additionOf block.instructions block.codes).take place)
      (List.zipWith additionOf block.instructions block.codes)[place] := by
    refine ⟨⟨(List.zipWith additionOf block.instructions block.codes).drop
      (place + 1), ?_⟩, code.address_eq atPlace⟩
    rw [List.cons_getElem_drop_succ, List.take_append_drop]
    rfl
  have guestFound : (blocks.map HostBlock.stored)[index]? =
      some block.stored := by
    rw [List.getElem?_map, found, Option.map_some]
  have member := List.mem_of_getElem? guestFound
  have stored := translated.stored
  have placed := stored.placed _ member
  have located := entry.located_of_startsAt placed.encodable starts
  rw [length_hostCode_take lengths place] at located
  have notNull : store.located (store.block index) inst.address ≠ .ok 0 :=
    entry.located_ne_zero (stored.nonempty _ member) placed.encodable
  rw [located] at notNull
  refine ⟨?_, fun zero => notNull (congrArg Except.ok zero)⟩
  rw [stored.held.find_of_contains stored.placed stored.disjoint guestFound
    (starts.contains placed), located]
  rfl

/-- Nothing is translated again. -/
theorem Translated.translate_of_serves
    {pc : Word}
    (translated : Translated translator symbols store blocks)
    (serves : Serves store blocks riscv pc)
    (executable : translator.Executable pc) :
    translator.translate store pc = .ok (riscv, store) := by
  obtain ⟨found, notNull⟩ := translated.find_of_serves serves
  rw [Translator.translate, if_pos executable, found]
  exact if_pos notNull

/-- The instruction behind one that does not end its block is served, too. -/
theorem Translated.serves_following
    {pc : Word}
    {inst : Instruction}
    (translated : Translated translator symbols store blocks)
    (serves : Serves store blocks riscv pc)
    (fetched : instructionAt translator.decoder translator.elf pc = some inst)
    (continues : inst.endOfBlock = false) :
    ∃ next, Serves store blocks next (inst.following pc) := by
  obtain ⟨index, block, place, first, found, atPlace, rfl, rfl⟩ := serves
  obtain ⟨generate, -, code⟩ := (translated.sound index block found).code
  have fromHere := code.drop atPlace
  generalize isRest : block.instructions.drop place = rest at fromHere
  generalize block.codes.drop place = codes at fromHere
  cases fromHere with
  | ends other _ ends =>
      obtain rfl := Option.some.inj (fetched.symm.trans other)
      exact Bool.noConfusion (ends.symm.trans continues)
  | falls other _ _ served =>
      obtain rfl := Option.some.inj (fetched.symm.trans other)
      exact ⟨_, served⟩
  | @cons _ _ _ _ rest _ other _ _ behind =>
      obtain rfl := Option.some.inj (fetched.symm.trans other)
      obtain ⟨second, isSecond, address⟩ := behind.head
      have next : block.instructions[place + 1]? = rest[0]? := by
        rw [← List.getElem?_drop, isRest, List.getElem?_cons_succ]
      exact ⟨_, index, block, place + 1, second, found,
        next.trans isSecond, address, rfl⟩

/-- What is asked of a block that is translated: it meets the next stored one,
and it is none of those that lose flags. -/
structure Suitable
    (translator : Translator)
    (store : CodeStore)
    (addr : Word) : Prop where
  meets : translator.MeetsNextBlock store addr
  covered : store.find translator.elf addr = .ok 0 ->
    ∀ block instructions,
      buildInstructions translator.decoder translator.elf translator.depth store
          addr = .ok (block, instructions) ->
        LinkRequirementsCovered translator.decoder translator.elf
          translator.depth.toNat block
  notFalls : store.find translator.elf addr = .ok 0 ->
    ∀ block instructions,
      buildInstructions translator.decoder translator.elf translator.depth store
          addr = .ok (block, instructions) ->
        ¬ FallsFromNot translator.decoder translator.elf
          translator.depth.toNat block

/-- The start of the next stored block is served. -/
theorem Translated.serves_nextStart
    {index : Nat}
    (translated : Translated translator symbols store blocks)
    (next : store.getNextBlock translator.elf addr = some index) :
    Serves store blocks (store.block index).riscvStart
      (store.block index).x86Start := by
  have member := List.mem_of_find?_eq_some next
  obtain ⟨entries, dropped, inside⟩ := List.mem_flatten.mp member
  obtain ⟨page, atPage⟩ := List.mem_iff_getElem?.mp
    (List.mem_of_mem_drop dropped)
  obtain ⟨guest, found, nonempty, -⟩ :=
    ((translated.stored.held.pages.2 page entries atPage).2 index).mp inside
  obtain ⟨block, blockFound, rfl⟩ := by
    rw [List.getElem?_map, Option.map_eq_some_iff] at found
    exact found
  have entry := translated.entry blockFound
  obtain ⟨generate, -, code⟩ := (translated.sound index block blockFound).code
  have some : 0 < block.instructions.length := by
    rw [List.length_pos_iff]
    rintro none
    apply nonempty
    change List.zipWith additionOf block.instructions block.codes = []
    rw [none, List.zipWith_nil_left]
  have atPlace := List.getElem?_eq_getElem some
  refine ⟨index, block, 0, _, blockFound, atPlace, ?_, ?_⟩
  · rw [entry.starts nonempty]
    apply BitVec.eq_of_toNat_eq
    rw [code.address_eq atPlace, List.take_zero, Addition.guestLength_nil]
    rfl
  · rw [positionOf_zero]

/-- How a built block ends. -/
theorem Translated.connects
    {block : DecodedBlock}
    {front : List Instruction}
    {last : Instruction}
    (translated : Translated translator symbols store blocks)
    (built : buildInstructions translator.decoder translator.elf
      translator.depth store addr = .ok (block, front ++ [last])) :
    (∀ inst ∈ front, inst.endOfBlock = false) ∧
      Connects (Serves store blocks) block.addr last
        (translator.connection store addr block) := by
  obtain ⟨describes, -⟩ := buildInstructions_cases built
  cases reaches : block.reachesNextBlock with
  | true =>
      have continues := built_continues built reaches
      refine ⟨fun inst member => continues inst (List.mem_append_left _ member),
        Or.inr ⟨continues last (by simp), ?_⟩⟩
      obtain ⟨index, next, start⟩ :=
        Option.map_eq_some_iff.mp (describes.next_of_reaches reaches)
      refine ⟨(store.block index).riscvStart, ?_, ?_⟩
      · rw [← start]
        exact translated.serves_nextStart next
      · simp only [Translator.connection, next, if_pos reaches]
  | false =>
      obtain ⟨continues, ends⟩ := built_ends built reaches rfl
      exact ⟨continues, Or.inl ⟨ends, connection_of_ends reaches⟩⟩

/-- The instructions of a suitable block keep the updates that the guest may
look at. -/
theorem Suitable.keeps
    {block : DecodedBlock}
    {instructions : List Instruction}
    (suitable : Suitable translator store addr)
    (unknown : store.find translator.elf addr = .ok 0)
    (built : buildInstructions translator.decoder translator.elf
      translator.depth store addr = .ok (block, instructions)) :
    (∀ inst ∈ instructions, ∀ addr,
      instructionAt translator.decoder translator.elf addr =
          some (declared inst) ->
        UpdatesExposed translator.decoder translator.elf addr inst) ∧
      ∀ inst ∈ instructions, QuietNot inst := by
  obtain ⟨describes, -⟩ := buildInstructions_cases built
  have assigned := (buildInstructions_describes built).2
  have keeps := keepsNeededUpdates_of_covered describes
    (suitable.covered unknown block instructions built)
  rw [← assigned] at keeps
  refine ⟨fun inst member addr => updatesExposed_of_keeps keeps member,
    fun inst member => ?_⟩
  refine not_mem_assignUpdates_not describes
    (suitable.notFalls unknown block instructions built) inst ?_
  rw [← assigned]
  exact member

/-- What a call of `translate` leaves of the store. -/
structure Extended
    (translator : Translator)
    (symbols : HostSymbols)
    (store after : CodeStore)
    (blocks further : List HostBlock) : Prop where
  translated : Translated translator symbols after (blocks ++ further)
  same : ∀ index < blocks.length, after.block index = store.block index

theorem Extended.refl
    (translated : Translated translator symbols store blocks) :
    Extended translator symbols store store blocks [] where
  translated := by rwa [List.append_nil]
  same _ _ := rfl

theorem HostBlock.Sound.mono
    {serves other : Word -> Word -> Prop}
    {riscvStart : Word}
    {block : HostBlock}
    (sound : block.Sound translator symbols serves riscvStart)
    (implies : ∀ target pc, serves target pc -> other target pc) :
    block.Sound translator symbols other riscvStart := by
  obtain ⟨⟨generate, generates, code⟩, assigned, quiet⟩ := sound
  exact ⟨⟨generate, generates, code.mono implies⟩, assigned, quiet⟩

/-- A new block is stored behind the others. -/
theorem Translated.insert
    {block : HostBlock}
    (translated : Translated translator symbols store blocks)
    (placed : block.stored.Placed translator.elf)
    (nonempty : block.stored.instructions ≠ [])
    (disjoint : ∀ other ∈ blocks.map HostBlock.stored,
      other.Disjoint block.stored)
    (inserted : CodeStore.insert translator.elf translator.memory store
      block.stored = .ok after)
    (sound : block.Sound translator symbols (Serves store blocks)
      (after.block blocks.length).riscvStart) :
    Extended translator symbols store after blocks [block] := by
  have stored := translated.stored
  obtain ⟨same, -⟩ := CodeStore.insert_apart stored.held stored.placed placed
    disjoint inserted
  rw [List.length_map] at same
  have serves : ∀ target pc, Serves store blocks target pc ->
      Serves after (blocks ++ [block]) target pc :=
    fun _ _ serves => serves_append serves same
  refine ⟨⟨?_, ?_, ?_⟩, same⟩
  · rw [List.map_append]
    exact stored.insert placed nonempty disjoint inserted
  · rw [List.map_append]
    exact translated.apart.insert stored.held stored.placed placed disjoint
      inserted
  · intro index other found
    rcases Nat.lt_or_ge index blocks.length with less | notLess
    · rw [List.getElem?_append_left less] at found
      rw [same index less]
      exact (translated.sound index other found).mono serves
    · obtain ⟨bound, -⟩ := List.getElem?_eq_some_iff.mp found
      rw [List.length_append, List.length_singleton] at bound
      obtain rfl : index = blocks.length := by omega
      rw [List.getElem?_concat_length] at found
      obtain rfl := Option.some.inj found
      exact sound.mono serves

/-- A call of `translate` returns code that serves its address. -/
theorem Translated.translate
    (translated : Translated translator symbols store blocks)
    (generates : Generates translator.generate symbols)
    (suitable : Suitable translator store addr)
    (returned : translator.translate store addr = .ok (riscv, after)) :
    ∃ further, Extended translator symbols store after blocks further ∧
      Serves after (blocks ++ further) riscv addr := by
  obtain ⟨executable, ⟨rfl, found, notNull⟩ | ⟨unknown, block, instructions,
    built, added, rfl⟩⟩ := translate_result returned
  · refine ⟨[], .refl translated, ?_⟩
    rw [List.append_nil]
    exact translated.serves_of_find executable.contains found notNull
  have stored := translated.stored
  have inside := executable.contains
  obtain ⟨describes, -, consecutive⟩ := buildInstructions_cases built
  have declaredEq := built_declared built
  obtain ⟨front, last, rfl⟩ : ∃ front last, instructions = front ++ [last] := by
    have nonempty : instructions ≠ [] := by
      rintro rfl
      exact describes.nonempty declaredEq.symm
    exact ⟨_, _, (List.dropLast_append_getLast nonempty).symm⟩
  obtain ⟨continues, connects⟩ := translated.connects built
  obtain ⟨codes, code, encodable, extent, inserted⟩ := addGenerated_codes
    consecutive continues connects added
    (after.block store.createBlock.1).riscvStart
  have count : store.createBlock.1 = blocks.length := by
    have lengths := stored.held.length_blocks
    rw [List.length_map] at lengths
    exact lengths
  let new : HostBlock := ⟨addr, front ++ [last], codes⟩
  have stopLt := stored.stop_lt describes extent inserted
  have nonempty : new.stored.instructions ≠ [] := by
    rw [← List.length_pos_iff]
    change 0 < (List.zipWith additionOf _ _).length
    rw [List.length_zipWith, code.length_eq, List.length_append,
      List.length_singleton]
    omega
  have placed : new.stored.Placed translator.elf :=
    ⟨((translator.elf.contains_iff addr).mp inside).1,
      by
        rw [GuestBlock.stop]
        exact extent ▸ stopLt, encodable⟩
  have disjoint := stored.new_disjoint inside suitable.meets unknown built
    extent
  obtain ⟨assigned, quiet⟩ := suitable.keeps unknown built
  rw [count] at code
  have extended := translated.insert placed nonempty disjoint inserted
    ⟨⟨translator.generate, generates, code⟩, assigned, quiet⟩
  obtain ⟨first, isFirst⟩ : ∃ first, (front ++ [last])[0]? = some first :=
    ⟨_, List.getElem?_eq_getElem (by simp)⟩
  refine ⟨[new], extended, blocks.length, new, 0, first,
    List.getElem?_concat_length, isFirst, ?_, ?_⟩
  · apply BitVec.eq_of_toNat_eq
    rw [code.address_eq isFirst, List.take_zero, Addition.guestLength_nil]
    rfl
  · rw [positionOf_zero, count]

end Calls

/-! ## Links -/

section Links

variable {translator : Translator} {symbols : HostSymbols}
variable {store after : CodeStore} {blocks : List HostBlock}
variable {index place : Nat} {block : HostBlock} {inst : Instruction}

/-- A block with other codes from an instruction on. -/
def HostBlock.relink
    (block : HostBlock)
    (place : Nat)
    (codes : List (List Inst)) : HostBlock :=
  { block with codes := block.codes.take place ++ codes }

theorem HostBlock.relink_sameShape
    {codes : List (List Inst)}
    (lengths : codes.map List.length =
      (block.codes.drop place).map List.length) :
    block.stored.SameShape (block.relink place codes).stored := by
  refine zipWith_sameShape ?_
  rw [List.map_append, lengths, ← List.map_append, List.take_append_drop]

theorem positionOf_congr
    {start : Word}
    {first second : List (List Inst)}
    (lengths : first.map List.length = second.map List.length)
    (index : Nat) :
    positionOf start first index = positionOf start second index := by
  have taken : ∀ codes : List (List Inst), (codes.take index).flatten.length =
      ((codes.map List.length).take index).sum := by
    intro codes
    rw [List.length_flatten, List.map_take]
  rw [positionOf, positionOf, taken, taken, lengths]

/-- The same addresses are served when a block has got other codes of the same
lengths. -/
theorem serves_relink
    {codes : List (List Inst)}
    {riscv pc : Word}
    (found : blocks[index]? = some block)
    (lengths : codes.map List.length =
      (block.codes.drop place).map List.length)
    (entries : after.blocks = store.blocks)
    (serves : Serves store blocks riscv pc) :
    Serves after (blocks.set index (block.relink place codes)) riscv pc := by
  obtain ⟨other, otherBlock, otherPlace, inst, otherFound, atPlace, address,
    rfl⟩ := serves
  have bound := (List.getElem?_eq_some_iff.mp found).1
  have sameEntry : after.block other = store.block other := by
    rw [CodeStore.block, CodeStore.block, entries]
  by_cases here : other = index
  · subst here
    obtain rfl := Option.some.inj (found.symm.trans otherFound)
    refine ⟨other, block.relink place codes, otherPlace, inst,
      List.getElem?_set_self bound, atPlace, address, ?_⟩
    rw [sameEntry]
    refine positionOf_congr ?_ otherPlace
    rw [HostBlock.relink, List.map_append, lengths, ← List.map_append,
      List.take_append_drop]
  · exact ⟨other, otherBlock, otherPlace, inst,
      by rwa [List.getElem?_set_ne (Ne.symm here)], atPlace, address,
      by rw [sameEntry]⟩

/-- `update_basic_block` links a slot to code that serves its address. -/
theorem Translated.link
    {generate : Instruction -> Option (List Inst)}
    {front behind : List Inst}
    {ptr target riscv : Word}
    (translated : Translated translator symbols store blocks)
    (found : blocks[index]? = some block)
    (atPlace : block.instructions[place]? = some inst)
    (position : positionOf (store.block index).riscvStart block.codes place =
      riscv)
    (generates : Generates generate symbols)
    (code : TranslatedFrom translator.decoder translator.elf generate
      (Serves store blocks) (store.block index).riscvStart block.start
      block.instructions block.codes)
    (split : (block.codes.drop place).flatten =
      front ++ Helper.appendEob ptr ++ behind)
    (emitted : Translates translator.decoder translator.elf generate
      (Serves store blocks) riscv inst.address (block.instructions.drop place)
      (block.codes.drop place)
      (front ++ linkSlot (riscv + BitVec.ofNat 64 (4 * front.length)) ptr
        target ++ behind)) :
    ∃ after linked, store.updateBasicBlock
        (riscv + BitVec.ofNat 64 (4 * (front.length + batchSize))) target =
          some after ∧
      Translated translator symbols after linked ∧
      ∀ riscv pc, Serves store blocks riscv pc ->
        Serves after linked riscv pc := by
  obtain ⟨same, flat, lengths, replaced⟩ := emitted
  subst position
  have whole := code.replace atPlace replaced
  have shape := block.relink_sameShape lengths
  let start := (block.codes.take place).flatten
  let pointer := codePointer (store.block index).riscvStart
  have offset : ∀ count, positionOf (store.block index).riscvStart block.codes
      place + BitVec.ofNat 64 (4 * count) =
        hostAddress (pointer + (start ++ front).length - front.length +
          count) := by
    intro count
    rw [translated.positionOf_eq found, List.length_append, ← Nat.add_assoc,
      Nat.add_sub_cancel]
    exact CodeStore.hostAddress_add _ _
  have oldCode : hostCode block.stored.instructions =
      ((start ++ front) ++ Helper.appendEob ptr ++ behind).map
        Inst.encode := by
    rw [translated.hostCode_eq found, ← List.take_append_drop place block.codes,
      List.flatten_append, split]
    simp only [List.append_assoc, start]
  have slotPosition : pointer + (start ++ front).length - front.length +
      front.length = pointer + (start ++ front).length := by
    rw [List.length_append]
    omega
  have newCode : hostCode (block.relink place same).stored.instructions =
      ((start ++ front) ++ updatedSlot (hostAddress
        (pointer + (start ++ front).length)) target (Helper.appendEob ptr) ++
          behind).map Inst.encode := by
    have relinked : hostCode (block.relink place same).stored.instructions =
        (block.codes.take place ++ same).flatten.map Inst.encode :=
      hostCode_zipWith whole.length_eq
    rw [relinked, List.flatten_append, flat, offset, slotPosition]
    simp only [List.append_assoc, start]
    rfl
  have guestFound : (blocks.map HostBlock.stored)[index]? =
      some block.stored := by
    rw [List.getElem?_map, found, Option.map_some]
  obtain ⟨after, updates, stored, apart, entries⟩ :=
    translated.stored.updateBasicBlock translated.apart guestFound shape rfl
      (by rfl) oldCode newCode
  have back : pointer + (start ++ front).length - front.length +
      (front.length + batchSize) =
        pointer + (start ++ front).length + batchSize := by
    rw [List.length_append]
    omega
  have serves : ∀ riscv pc, Serves store blocks riscv pc ->
      Serves after (blocks.set index (block.relink place same)) riscv pc :=
    fun _ _ serves => serves_relink found lengths entries serves
  refine ⟨after, blocks.set index (block.relink place same), ?_,
    ⟨?_, ?_, ?_⟩, serves⟩
  · rw [offset, back]
    exact updates
  · rw [List.map_set]
    exact stored
  · rw [List.map_set]
    exact apart
  · intro other otherBlock otherFound
    have bound := (List.getElem?_eq_some_iff.mp found).1
    have sameEntry : after.block other = store.block other := by
      rw [CodeStore.block, CodeStore.block, entries]
    rw [sameEntry]
    by_cases here : other = index
    · subst here
      rw [List.getElem?_set_self bound] at otherFound
      obtain rfl := Option.some.inj otherFound
      have sound := translated.sound other block found
      exact HostBlock.Sound.mono
        ⟨⟨generate, generates, whole⟩, sound.assigned, sound.quiet⟩ serves
    · rw [List.getElem?_set_ne (Ne.symm here)] at otherFound
      exact (translated.sound other otherBlock otherFound).mono serves

end Links

/-! ## A loop -/

/-- `jmp` to the first byte of the loop. -/
def jmpBack : Fadec.Encoding where
  head := 0xeb
  tail := [0xf9]
  inst address :=
    { type := .jmp, operands := [.imm .qword], immediate := address - 5 }
  wellFormed _ := by simp [Fadec.Instruction.wellFormed]; decide

/-- The decoder of `cmp eax, eax`, `setz al` and `jmp`. -/
def loopDecoder : Fadec.Decoder := .ofEncodings [.cmpEaxEax, .setzAl, jmpBack]

/-- `cmp eax, eax; setz al; jmp 0x400000` -/
def loopElf : Elf :=
  .ofBytes [0x39, 0xc0, 0x0f, 0x94, 0xc0, 0xeb, 0xf9] 1 (by decide)

/-- The code is at 0x10000. -/
def loopRegion : Allocator 0x400 where
  region index := if index = 0 then some 0x4000 else none
  region_pos found := by
    obtain ⟨-, same⟩ := Option.ite_none_right_eq_some.mp found
    obtain rfl := Option.some.inj same
    decide
  region_end found := by
    obtain ⟨-, same⟩ := Option.ite_none_right_eq_some.mp found
    obtain rfl := Option.some.inj same
    decide
  disjoint different firstFound secondFound := by
    obtain ⟨rfl, -⟩ := Option.ite_none_right_eq_some.mp firstFound
    obtain ⟨rfl, -⟩ := Option.ite_none_right_eq_some.mp secondFound
    exact absurd rfl different

def loopTranslator : Translator where
  decoder := loopDecoder
  elf := loopElf
  depth := 1
  generate inst := inst.generate sampleSymbols 0
  memory := ⟨0x400, 0x100, loopRegion, .consecutive 0x100⟩

def loopBlock : DecodedBlock where
  instructions := [
    transformInstruction (Fadec.Encoding.cmpEaxEax.decodedAt 0x400000),
    transformInstruction (Fadec.Encoding.setzAl.decodedAt 0x400002),
    transformInstruction (jmpBack.decodedAt 0x400005)]
  addr := 0x400007
  reachesNextBlock := false

/-- The comparison has to update the zero flag only. -/
def loopInstructions : List Instruction := [
  (transformInstruction
    (Fadec.Encoding.cmpEaxEax.decodedAt 0x400000)).setUpdate Flags.zero,
  transformInstruction (Fadec.Encoding.setzAl.decodedAt 0x400002),
  transformInstruction (jmpBack.decodedAt 0x400005)]

theorem buildInstructions_loop :
    buildInstructions loopDecoder loopElf 1 (.empty loopElf) 0x400000 =
      .ok (loopBlock, loopInstructions) := by
  have decoded : decodeBlock loopDecoder loopElf none (scanFuel loopElf) []
      0x400000 = .ok loopBlock := by
    decide +kernel
  have assigned : assignUpdates loopDecoder loopElf (1 : BitVec 8).toNat
      loopBlock = loopInstructions := by
    decide +kernel
  have nextBlock : (CodeStore.empty loopElf).getNextBlock loopElf 0x400000 =
      none := by
    decide +kernel
  simp only [buildInstructions, nextBlock, Option.map_none, decoded]
  exact congrArg (fun instructions => Except.ok (loopBlock, instructions))
    assigned

theorem loop_covered :
    LinkRequirementsCovered loopDecoder loopElf (1 : BitVec 8).toNat
      loopBlock := by
  intro before updater between last flag _ _ reaches
  cases reaches

theorem loop_notFalls :
    ¬ FallsFromNot loopDecoder loopElf (1 : BitVec 8).toNat loopBlock := by
  rintro ⟨last, flag, -, -, reaches, -⟩
  cases reaches

/-- The loop is suitable for an empty store. -/
theorem loop_suitable :
    Suitable loopTranslator (.empty loopElf) 0x400000 where
  meets := by
    intro _ start next
    have noNext : nextStart loopElf (.empty loopElf) 0x400000 = none := by
      decide +kernel
    cases noNext.symm.trans next
  covered _ block instructions built := by
    obtain ⟨rfl, -⟩ := Prod.mk.inj (Except.ok.inj
      (buildInstructions_loop.symm.trans built))
    exact loop_covered
  notFalls _ block instructions built := by
    obtain ⟨rfl, -⟩ := Prod.mk.inj (Except.ok.inj
      (buildInstructions_loop.symm.trans built))
    exact loop_notFalls

theorem loop_inCode
    {address : Word}
    (inCode : InCode loopTranslator.memory address) :
    ∃ pointer, 0x4000 ≤ pointer ∧ pointer < 0x4400 ∧
      address = hostAddress pointer := by
  obtain ⟨index, region, pointer, isRegion, low, high, rfl⟩ := inCode
  obtain ⟨-, same⟩ := Option.ite_none_right_eq_some.mp isRegion
  obtain rfl := Option.some.inj same
  exact ⟨pointer, low, high, rfl⟩

/-- The loop is translated. -/
theorem translate_loop :
    ∃ riscv store, loopTranslator.translate (.empty loopElf) 0x400000 =
      .ok (riscv, store) := by
  have returns : (loopTranslator.translate (.empty loopElf)
      0x400000).isOk = true := by
    decide +kernel
  cases returned : loopTranslator.translate (.empty loopElf) 0x400000 with
  | error fault =>
      rw [returned] at returns
      cases returns
  | ok result => exact ⟨_, _, rfl⟩

end Guest
end Oxtra

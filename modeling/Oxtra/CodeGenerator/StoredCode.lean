import Oxtra.CodeGenerator.Overlap
import Oxtra.CodeStore.Lookup

/-!
# Host code in the store

The host code of a new block lies apart from the code of the blocks that are
stored already, and these stay where they are.  Hence `update_basic_block`
changes the code of one block only, and the store still holds its blocks.
-/

namespace Oxtra

open RiscV
open Addition (guestLength guestLength_nil guestLength_cons hostCode)

namespace CodeStore

/-! ## Where the code of a new block is -/

section Insertion

variable {elf : Elf} {memory : Memory} {store after : CodeStore}
variable {blocks : List GuestBlock} {index : Nat}

/-- The first step of `add_instruction`. -/
theorem insertBlock_keeps
    {address : BitVec 64}
    (inserts : store.insertBlock elf index address = .ok after) :
    after.codeBuffer = store.codeBuffer ∧
      (after.block index).riscvStart = (store.block index).riscvStart ∧
      after.blocks.length = store.blocks.length ∧
      ∀ other, other ≠ index -> after.block other = store.block other := by
  rw [insertBlock] at inserts
  split at inserts
  · simp only [bind, Except.bind] at inserts
    split at inserts
    · cases inserts
    · obtain rfl := Except.ok.inj inserts
      refine ⟨rfl, ?_, List.length_set,
        fun other different => block_set_of_ne different⟩
      by_cases bound : index < store.blocks.length
      · simp only [block, setPage, setBlock, block_set_self bound]
      · simp only [block, setPage, setBlock,
          List.set_eq_of_length_le (Nat.le_of_not_lt bound)]
  · split at inserts
    · cases inserts
    · obtain rfl := Except.ok.inj inserts
      exact ⟨rfl, rfl, rfl, fun _ _ => rfl⟩

theorem spillBlock_keeps
    (spilled : store.spillBlock elf index = .ok after) :
    after.codeBuffer = store.codeBuffer ∧ after.blocks = store.blocks := by
  rw [spillBlock] at spilled
  split at spilled
  · simp only [bind, Except.bind] at spilled
    split at spilled
    · cases spilled
    · split at spilled
      · obtain rfl := Except.ok.inj spilled
        exact ⟨rfl, rfl⟩
      · obtain rfl := Except.ok.inj spilled
        exact ⟨rfl, rfl⟩
  · obtain rfl := Except.ok.inj spilled
    exact ⟨rfl, rfl⟩

/-- What `add_instruction` does with the host code and with the entries of the
blocks. -/
theorem addInstruction_code
    {address : BitVec 64}
    {addition : Addition}
    (bound : index < store.blocks.length)
    (added : store.addInstruction elf memory index address addition.size
      addition.code = .ok after) :
    ∃ riscvStart,
      store.codeBuffer.add memory.code
          (codePointer (store.block index).riscvStart) addition.code =
        (riscvStart, after.codeBuffer) ∧
      riscvStart ≠ 0 ∧
      (after.block index).riscvStart = hostAddress riscvStart ∧
      ∀ other, other ≠ index -> after.block other = store.block other := by
  obtain ⟨inserted, riscvStart, codeBuffer, offsets, offsetBuffer, inserts,
    codeAdded, notNull, -, -, spilled⟩ := addInstruction_cases added
  obtain ⟨sameBuffer, sameStart, sameLength, others⟩ :=
    insertBlock_keeps inserts
  obtain ⟨spilledBuffer, spilledBlocks⟩ := spillBlock_keeps spilled
  rw [sameBuffer, sameStart] at codeAdded
  refine ⟨riscvStart, by rw [spilledBuffer]; exact codeAdded, notNull, ?_, ?_⟩
  · rw [block, spilledBlocks, block_set_self (sameLength ▸ bound)]
    rfl
  · intro other different
    rw [block, spilledBlocks, block_set_of_ne different]
    exact others other different

/-- The address behind another instruction of a block. -/
theorem follows_concat
    {start address : BitVec 64}
    {front : List Addition}
    {addition : Addition}
    (placed : GuestBlock.Placed elf ⟨start, front ++ [addition]⟩)
    (follows : address.toNat = GuestBlock.stop ⟨start, front⟩) :
    (address + addition.size.setWidth 64).toNat =
      GuestBlock.stop ⟨start, front ++ [addition]⟩ := by
  have stopLt := placed.stop_lt
  have endLt := elf.end_lt
  have newStop : GuestBlock.stop ⟨start, front ++ [addition]⟩ =
      address.toNat + addition.size.toNat := by
    rw [follows]
    simp [GuestBlock.stop, Nat.add_assoc]
  rw [newStop] at stopLt ⊢
  rw [BitVec.toNat_add, BitVec.toNat_setWidth]
  omega

variable {taken : Nat -> Prop}

/-- The code of a growing block does not reach into other code, and the entries
of the other blocks stay as they are. -/
theorem addInstructions_apart
    {start address : BitVec 64}
    {front rest : List Addition}
    (held : Holds elf memory store (blocks ++ [⟨start, front⟩]))
    (growing : Growing memory store blocks.length front)
    (placed : ∀ block ∈ blocks, block.Placed elf)
    (newPlaced : GuestBlock.Placed elf ⟨start, front ++ rest⟩)
    (disjoint : ∀ block ∈ blocks, block.Disjoint ⟨start, front ++ rest⟩)
    (follows : address.toNat = GuestBlock.stop ⟨start, front⟩)
    (used : ∀ pointer, taken pointer ->
      store.codeBuffer.Used memory.code pointer)
    (apart : ∀ index < (hostCode front).length,
      ¬ taken (codePointer (store.block blocks.length).riscvStart + index))
    (added : addInstructions elf memory blocks.length store address rest =
      .ok after) :
    (∀ other, other ≠ blocks.length ->
        after.block other = store.block other) ∧
      store.codeBuffer.Extends memory.code after.codeBuffer ∧
      ∀ index < (hostCode (front ++ rest)).length,
        ¬ taken
          (codePointer (after.block blocks.length).riscvStart + index) := by
  induction rest generalizing store address front with
  | nil =>
      obtain rfl := Except.ok.inj added
      rw [List.append_nil]
      exact ⟨fun _ _ => rfl, StaticList.Extends.refl, apart⟩
  | cons addition rest inductionHypothesis =>
      simp only [addInstructions, bind, Except.bind] at added
      split at added
      · cases added
      · rename_i next addedFirst
        rw [List.append_cons front] at newPlaced disjoint ⊢
        have firstPlaced := newPlaced.of_initial
        have encodable := firstPlaced.encodable addition (by simp)
        obtain ⟨nextHeld, nextGrowing⟩ := addInstruction_holds held growing
          placed firstPlaced (fun block member =>
            (disjoint block member).of_initial) follows addedFirst
        have bound : blocks.length < store.blocks.length := by
          rw [held.length_blocks]
          simp
        obtain ⟨riscvStart, codeAdded, notNull, starts, others⟩ :=
          addInstruction_code bound addedFirst
        have few : addition.code.length < 2 ^ 62 := by
          have codeLe := encodable.code_le
          rw [maxRiscvInstructions, maxRiscvInstructionsBits] at codeLe
          omega
        obtain ⟨wellFormed, kept, ends⟩ := StaticList.add_spec
          held.code_wellFormed growing.code few codeAdded notNull
        have avoids := StaticList.add_avoids held.code_wellFormed growing.code
          few used apart codeAdded notNull
        have codeLt := ends.length_lt wellFormed
        have pointerEq : codePointer (next.block blocks.length).riscvStart =
            riscvStart := by
          rw [starts, codePointer_hostAddress (by omega)]
        obtain ⟨othersLater, keptLater, apartLater⟩ := inductionHypothesis
          nextHeld nextGrowing newPlaced disjoint
          (follows_concat firstPlaced follows)
          (fun pointer isTaken => (kept pointer (used pointer isTaken)).1)
          (by simpa [pointerEq] using avoids) added
        exact ⟨fun other different =>
            (othersLater other different).trans (others other different),
          kept.trans keptLater, apartLater⟩

/-- The host code of a block lies at the pointer. -/
def HasCode
    (store : CodeStore)
    (blocks : List GuestBlock)
    (index pointer : Nat) : Prop :=
  ∃ block, blocks[index]? = some block ∧
    codePointer (store.block index).riscvStart ≤ pointer ∧
      pointer < codePointer (store.block index).riscvStart +
        (hostCode block.instructions).length

/-- No pointer belongs to the host code of two blocks. -/
def CodeApart (store : CodeStore) (blocks : List GuestBlock) : Prop :=
  ∀ first second pointer, store.HasCode blocks first pointer ->
    store.HasCode blocks second pointer -> first = second

theorem Holds.used_of_hasCode
    {pointer : Nat}
    (held : Holds elf memory store blocks)
    (has : store.HasCode blocks index pointer) :
    store.codeBuffer.Used memory.code pointer := by
  obtain ⟨block, found, low, high⟩ := has
  have stored := (held.stored index block found).code
  obtain ⟨offset, rfl⟩ := Nat.exists_eq_add_of_le low
  have inside : offset < (hostCode block.instructions).length := by omega
  exact (stored offset _ (List.getElem?_eq_getElem inside)).1

/-- The code of a new block lies apart from all that has been stored, and the
other blocks stay where they are. -/
theorem insert_apart
    {block : GuestBlock}
    (held : Holds elf memory store blocks)
    (placed : ∀ block ∈ blocks, block.Placed elf)
    (newPlaced : block.Placed elf)
    (disjoint : ∀ other ∈ blocks, other.Disjoint block)
    (inserted : insert elf memory store block = .ok after) :
    (∀ index < blocks.length, after.block index = store.block index) ∧
      store.codeBuffer.Extends memory.code after.codeBuffer ∧
      ∀ index < (hostCode block.instructions).length,
        ¬ store.codeBuffer.Used memory.code
          (codePointer (after.block blocks.length).riscvStart + index) := by
  obtain ⟨indexEq, created, growing⟩ := createBlock_holds held block.start
  simp only [insert, indexEq] at inserted
  obtain ⟨others, kept, apart⟩ := addInstructions_apart created growing placed
    newPlaced disjoint rfl (fun _ => id) (by simp) inserted
  refine ⟨fun index less => ?_, kept, apart⟩
  rw [others index less.ne, createBlock_block]

theorem CodeApart.insert
    {block : GuestBlock}
    (apart : store.CodeApart blocks)
    (held : Holds elf memory store blocks)
    (placed : ∀ block ∈ blocks, block.Placed elf)
    (newPlaced : block.Placed elf)
    (disjoint : ∀ other ∈ blocks, other.Disjoint block)
    (inserted : CodeStore.insert elf memory store block = .ok after) :
    after.CodeApart (blocks ++ [block]) := by
  obtain ⟨others, -, fresh⟩ :=
    insert_apart held placed newPlaced disjoint inserted
  have cases {index pointer : Nat}
      (has : after.HasCode (blocks ++ [block]) index pointer) :
      store.HasCode blocks index pointer ∨
        index = blocks.length ∧
          ¬ store.codeBuffer.Used memory.code pointer := by
    obtain ⟨other, found, low, high⟩ := has
    rcases Nat.lt_or_ge index blocks.length with less | notLess
    · rw [List.getElem?_append_left less] at found
      rw [others index less] at low high
      exact Or.inl ⟨other, found, low, high⟩
    · obtain ⟨bound, -⟩ := List.getElem?_eq_some_iff.mp found
      rw [List.length_append, List.length_singleton] at bound
      obtain rfl : index = blocks.length := by omega
      rw [List.getElem?_concat_length] at found
      obtain rfl := Option.some.inj found
      obtain ⟨offset, rfl⟩ := Nat.exists_eq_add_of_le low
      exact Or.inr ⟨rfl, fresh offset (by omega)⟩
  intro first second pointer firstHas secondHas
  rcases cases firstHas with firstOld | ⟨rfl, notUsed⟩ <;>
    rcases cases secondHas with secondOld | ⟨rfl, notUsedToo⟩
  · exact apart first second pointer firstOld secondOld
  · exact absurd (held.used_of_hasCode firstOld) notUsedToo
  · exact absurd (held.used_of_hasCode secondOld) notUsed
  · rfl

end Insertion

/-! ## Addresses that are found -/

/-- An address that the walk over the instructions of a block finds is the start
of one of them. -/
theorem locate_some
    {size pointer : Nat}
    {allocator : Allocator size}
    {offsets : StaticList InstructionOffset}
    {instructions : List Addition}
    {guestAddress host x86Code result : BitVec 64}
    (stored : offsets.Stores allocator pointer
      (instructions.map Addition.offset))
    (encodable : ∀ addition ∈ instructions, addition.Encodable)
    (bound : guestAddress.toNat + guestLength instructions < 2 ^ 64)
    (located : locate offsets.cells x86Code instructions.length pointer
      guestAddress host = some result) :
    ∃ front addition back, instructions = front ++ addition :: back ∧
      x86Code.toNat = guestAddress.toNat + guestLength front := by
  induction instructions generalizing pointer guestAddress host with
  | nil => cases located
  | cons first rest inductionHypothesis =>
      rw [List.length_cons, locate] at located
      split at located
      · rename_i here
        exact ⟨[], first, rest, rfl, by rw [here]; rfl⟩
      · have entry : offsets.cells pointer = first.offset :=
          (stored 0 first.offset rfl).2
        have behind : offsets.Stores allocator (pointer + 1)
            (rest.map Addition.offset) := by
          have split := stored
          rw [List.map_cons, ← List.singleton_append] at split
          exact split.append_right
        have sized := (encodable first List.mem_cons_self).x86_toNat
        rw [guestLength_cons] at bound
        have following : (guestAddress + first.offset.x86.setWidth 64).toNat =
            guestAddress.toNat + first.size.toNat := by
          have sizeLt := first.size.isLt
          rw [BitVec.toNat_add, BitVec.toNat_setWidth, sized]
          omega
        rw [entry] at located
        obtain ⟨front, addition, back, rfl, addressEq⟩ := inductionHypothesis
          behind (fun other member => encodable other
            (List.mem_cons_of_mem _ member)) (by omega) located
        refine ⟨first :: front, addition, back, rfl, ?_⟩
        rw [guestLength_cons]
        omega

/-- An address that is found is the start of an instruction of a block. -/
theorem Holds.startsAt_of_find
    {elf : Elf}
    {memory : Memory}
    {store : CodeStore}
    {blocks : List GuestBlock}
    {address riscv : BitVec 64}
    (held : Holds elf memory store blocks)
    (placed : ∀ block ∈ blocks, block.Placed elf)
    (disjoint : blocks.Pairwise GuestBlock.Disjoint)
    (inside : elf.Contains address)
    (found : find elf store address = .ok riscv)
    (notNull : riscv ≠ 0) :
    ∃ index block front addition, blocks[index]? = some block ∧
      block.StartsAt address front addition ∧
      riscv = (store.block index).riscvStart +
        BitVec.ofNat 64 (4 * (hostCode front).length) := by
  by_cases covered : ∃ block ∈ blocks, block.Contains address
  swap
  · rw [held.find_of_not_contains inside fun block member contains =>
      covered ⟨block, member, contains⟩] at found
    exact absurd (Except.ok.inj found).symm notNull
  obtain ⟨block, member, contains⟩ := covered
  obtain ⟨index, atIndex⟩ := List.mem_iff_getElem?.mp member
  have stored := held.stored index block atIndex
  have blockPlaced := placed block member
  have nonempty : block.instructions ≠ [] := by
    intro none
    obtain ⟨low, high⟩ := contains
    rw [GuestBlock.stop, none, guestLength_nil] at high
    omega
  rw [held.find_of_contains placed disjoint atIndex contains] at found
  have walk := found
  rw [CodeStore.located, stored.count, stored.starts nonempty] at walk
  split at walk
  case h_2 => cases walk
  case h_1 host located =>
    have stopLt := blockPlaced.stop_lt
    have endLt := elf.end_lt
    obtain ⟨front, addition, back, split, addressEq⟩ := locate_some
      stored.offsets blockPlaced.encodable (by
        rw [GuestBlock.stop] at stopLt
        omega) located
    have starts : block.StartsAt address front addition :=
      ⟨⟨back, split⟩, addressEq⟩
    rw [stored.located_of_startsAt blockPlaced.encodable starts] at found
    exact ⟨index, block, front, addition, atIndex, starts,
      (Except.ok.inj found).symm⟩

/-! ## The words of the code -/

/-- The instruction words in the memory of the host. -/
def words (store : CodeStore) : CodeWords :=
  fun address => store.codeBuffer.cells (codePointer address)

/-- The store with other instruction words. -/
def patch (store : CodeStore) (words : CodeWords) : CodeStore :=
  { store with
    codeBuffer :=
      { store.codeBuffer with
        cells := fun pointer => words (hostAddress pointer) } }

/-- `update_basic_block` in the memory of the store. -/
def updateBasicBlock
    (store : CodeStore)
    (addr absoluteAddress : Word) : Option CodeStore :=
  (CodeGenerator.updateBasicBlock store.words addr absoluteAddress).map
    store.patch

section Words

variable {memory : Memory} {store : CodeStore} {words : CodeWords}

theorem hostAddress_aligned (pointer : Nat) :
    (hostAddress pointer).toNat % 4 = 0 := by
  rw [hostAddress, BitVec.toNat_ofNat]
  omega

/-- Pointers behind a host address. -/
theorem hostAddress_add (pointer offset : Nat) :
    CodeMemory.pointer (hostAddress pointer) offset =
      hostAddress (pointer + offset) := by
  rw [CodeMemory.pointer, hostAddress, hostAddress, Nat.mul_add,
    BitVec.ofNat_add]

/-- Stored code lies at its address. -/
theorem holdsCode_words
    {pointer : Nat}
    {code : List Inst}
    (stored : store.codeBuffer.Stores memory.code pointer
      (code.map Inst.encode))
    (bound : pointer + code.length < 2 ^ 62) :
    CodeGenerator.HoldsCode store.words (hostAddress pointer) code := by
  intro index inst found
  have inside := (List.getElem?_eq_some_iff.mp found).1
  obtain ⟨-, content⟩ := stored index inst.encode (by simp [found])
  rw [hostAddress_add, CodeStore.words, codePointer_hostAddress (by omega)]
  exact content

end Words

end CodeStore

/-! ## Blocks with other code -/

/-- The sizes of an instruction and of its code. -/
def Addition.shape (addition : Addition) : BitVec 8 × Nat :=
  (addition.size, addition.code.length)

/-- A block of the same instructions, with as many words of code for each. -/
structure GuestBlock.SameShape (first second : GuestBlock) : Prop where
  start : second.start = first.start
  shapes : second.instructions.map Addition.shape =
    first.instructions.map Addition.shape

namespace GuestBlock

variable {elf : Elf} {first second : GuestBlock}

theorem SameShape.refl (block : GuestBlock) : block.SameShape block :=
  ⟨rfl, rfl⟩

/-- What depends on the sizes only. -/
theorem SameShape.map_eq
    {T : Type}
    {measure : Addition -> T}
    (same : first.SameShape second)
    (ofShape : BitVec 8 × Nat -> T)
    (measures : ∀ addition, measure addition = ofShape addition.shape) :
    second.instructions.map measure = first.instructions.map measure := by
  have through : ∀ instructions : List Addition, instructions.map measure =
      (instructions.map Addition.shape).map ofShape := by
    intro instructions
    rw [List.map_map]
    exact List.map_congr_left fun addition _ => measures addition
  rw [through, through, same.shapes]

theorem SameShape.length
    (same : first.SameShape second) :
    second.instructions.length = first.instructions.length := by
  have lengths := congrArg List.length same.shapes
  rwa [List.length_map, List.length_map] at lengths

theorem SameShape.nonempty_iff
    (same : first.SameShape second) :
    second.instructions ≠ [] ↔ first.instructions ≠ [] := by
  rw [← List.length_pos_iff, ← List.length_pos_iff, same.length]

theorem SameShape.stop
    (same : first.SameShape second) : second.stop = first.stop := by
  have sizes := @map_eq _ _ _ (fun addition => addition.size.toNat) same
    (fun shape => shape.1.toNat) fun _ => rfl
  rw [GuestBlock.stop, GuestBlock.stop, same.start, guestLength, guestLength,
    sizes]

theorem SameShape.hostCode_length
    (same : first.SameShape second) :
    (hostCode second.instructions).length =
      (hostCode first.instructions).length := by
  have lengths := @map_eq _ _ _ (fun addition => addition.code.length) same
    Prod.snd fun _ => rfl
  rw [hostCode, hostCode, List.length_flatMap, List.length_flatMap, lengths]

theorem SameShape.offsets
    (same : first.SameShape second) :
    second.instructions.map Addition.offset =
      first.instructions.map Addition.offset :=
  same.map_eq (fun shape =>
    { x86 := shape.1.setWidth 6, riscv := BitVec.ofNat _ (shape.2 * 4) })
    fun _ => rfl

theorem SameShape.placed
    (same : first.SameShape second)
    (placed : first.Placed elf) : second.Placed elf where
  start_ge := by
    rw [same.start]
    exact placed.start_ge
  stop_lt := by
    rw [same.stop]
    exact placed.stop_lt
  encodable := by
    intro addition member
    have inShapes : addition.shape ∈ first.instructions.map Addition.shape := by
      rw [← same.shapes]
      exact List.mem_map_of_mem member
    obtain ⟨other, otherMember, shapeEq⟩ := List.mem_map.mp inShapes
    obtain ⟨sizeEq, lengthEq⟩ := Prod.mk.inj shapeEq
    have encodable := placed.encodable other otherMember
    exact ⟨sizeEq ▸ encodable.size_pos, sizeEq ▸ encodable.size_le,
      lengthEq ▸ encodable.code_le⟩

theorem SameShape.contains_iff
    (same : first.SameShape second)
    (address : BitVec 64) :
    second.Contains address ↔ first.Contains address := by
  rw [Contains, Contains, same.start, same.stop]

end GuestBlock

namespace CodeGenerator

open CodeStore

variable {translator : Translator} {store : CodeStore} {words : CodeWords}
variable {blocks : List GuestBlock} {index : Nat} {old new : GuestBlock}

/-- A new block that does not overlap with those in the store. -/
theorem Stored.insert
    {after : CodeStore}
    {block : GuestBlock}
    (stored : Stored translator store blocks)
    (placed : block.Placed translator.elf)
    (nonempty : block.instructions ≠ [])
    (disjoint : ∀ other ∈ blocks, other.Disjoint block)
    (inserted : CodeStore.insert translator.elf translator.memory store block =
      .ok after) : Stored translator after (blocks ++ [block]) where
  held := insert_holds stored.held stored.placed placed disjoint inserted
  placed := by
    simp only [List.forall_mem_append, List.forall_mem_singleton]
    exact ⟨stored.placed, placed⟩
  nonempty := by
    simp only [List.forall_mem_append, List.forall_mem_singleton]
    exact ⟨stored.nonempty, nonempty⟩
  disjoint := by
    rw [List.pairwise_append]
    refine ⟨stored.disjoint, List.pairwise_singleton .., ?_⟩
    intro other member new newMember
    obtain rfl := List.mem_singleton.mp newMember
    exact disjoint other member

/-- The blocks when one of them has other code. -/
theorem set_getElem?
    (found : blocks[index]? = some old)
    (same : old.SameShape new)
    {position : Nat}
    {block : GuestBlock}
    (atPosition : (blocks.set index new)[position]? = some block) :
    ∃ before, blocks[position]? = some before ∧ before.SameShape block ∧
      (position = index -> block = new) ∧
        (position ≠ index -> block = before) := by
  have bound := (List.getElem?_eq_some_iff.mp found).1
  by_cases here : position = index
  · subst here
    rw [List.getElem?_set_self bound] at atPosition
    obtain rfl := Option.some.inj atPosition
    exact ⟨old, found, same, fun _ => rfl, fun different => absurd rfl different⟩
  · rw [List.getElem?_set_ne (Ne.symm here)] at atPosition
    exact ⟨block, atPosition, .refl block, fun same => absurd same here,
      fun _ => rfl⟩

theorem set_getElem?_of
    (found : blocks[index]? = some old)
    (same : old.SameShape new)
    {position : Nat}
    {before : GuestBlock}
    (atPosition : blocks[position]? = some before) :
    ∃ block, (blocks.set index new)[position]? = some block ∧
      before.SameShape block := by
  have bound := (List.getElem?_eq_some_iff.mp found).1
  by_cases here : position = index
  · subst here
    obtain rfl := Option.some.inj (found.symm.trans atPosition)
    exact ⟨new, List.getElem?_set_self bound, same⟩
  · exact ⟨before, by rwa [List.getElem?_set_ne (Ne.symm here)], .refl before⟩

theorem hasCode_set_iff
    (found : blocks[index]? = some old)
    (same : old.SameShape new)
    (position pointer : Nat) :
    (store.patch words).HasCode (blocks.set index new) position pointer ↔
      store.HasCode blocks position pointer := by
  constructor
  · rintro ⟨block, atPosition, low, high⟩
    obtain ⟨before, beforeFound, shape, -⟩ := set_getElem? found same atPosition
    rw [shape.hostCode_length] at high
    exact ⟨before, beforeFound, low, high⟩
  · rintro ⟨before, beforeFound, low, high⟩
    obtain ⟨block, atPosition, shape⟩ := set_getElem?_of found same beforeFound
    rw [← shape.hostCode_length] at high
    exact ⟨block, atPosition, low, high⟩

theorem reaches_set_iff
    {elf : Elf}
    (found : blocks[index]? = some old)
    (same : old.SameShape new)
    (position page : Nat) :
    Reaches elf (blocks.set index new) position page ↔
      Reaches elf blocks position page := by
  constructor
  · rintro ⟨block, atPosition, nonempty, low, high⟩
    obtain ⟨before, beforeFound, shape, -⟩ := set_getElem? found same atPosition
    rw [shape.start] at low
    rw [shape.stop] at high
    exact ⟨before, beforeFound, shape.nonempty_iff.mp nonempty, low, high⟩
  · rintro ⟨before, beforeFound, nonempty, low, high⟩
    obtain ⟨block, atPosition, shape⟩ := set_getElem?_of found same beforeFound
    rw [← shape.start] at low
    rw [← shape.stop] at high
    exact ⟨block, atPosition, shape.nonempty_iff.mpr nonempty, low, high⟩

section Patch

variable (stored : Stored translator store blocks)
variable (apart : store.CodeApart blocks)
variable (found : blocks[index]? = some old)
variable (same : old.SameShape new)
variable (written : ∀ position word,
  (hostCode new.instructions)[position]? = some word ->
    words (hostAddress
      (codePointer (store.block index).riscvStart + position)) = word)
variable (kept : ∀ pointer < 2 ^ 62, ¬ store.HasCode blocks index pointer ->
  words (hostAddress pointer) = store.words (hostAddress pointer))

include stored apart found same written kept

/-- The entry of a block when one of the blocks has got other code. -/
theorem Stored.patch_storesBlock
    {position : Nat}
    {block : GuestBlock}
    (atPosition : (blocks.set index new)[position]? = some block) :
    StoresBlock translator.memory (store.patch words)
      ((store.patch words).block position) block := by
  obtain ⟨before, beforeFound, shape, isNew, isOld⟩ :=
    set_getElem? found same atPosition
  have entry := stored.held.stored position before beforeFound
  refine
    { count := by rw [shape.length]; exact entry.count
      starts := fun nonempty => by
        rw [shape.start]
        exact entry.starts (shape.nonempty_iff.mp nonempty)
      stops := fun nonempty => by
        rw [shape.stop]
        exact entry.stops (shape.nonempty_iff.mp nonempty)
      aligned := entry.aligned
      located := fun nonempty =>
        entry.located (shape.nonempty_iff.mp nonempty)
      code := ?_
      code_lt := by rw [shape.hostCode_length]; exact entry.code_lt
      offsets := by rw [shape.offsets]; exact entry.offsets }
  intro offset word atOffset
  have inside := (List.getElem?_eq_some_iff.mp atOffset).1
  rw [shape.hostCode_length] at inside
  obtain ⟨used, content⟩ := entry.code offset _
    (List.getElem?_eq_getElem inside)
  refine ⟨used, ?_⟩
  have codeLt := entry.code_lt
  by_cases here : position = index
  · subst here
    obtain rfl := isNew rfl
    exact written offset word atOffset
  · obtain rfl := isOld here
    have has : store.HasCode blocks position
        (codePointer (store.block position).riscvStart + offset) :=
      ⟨block, beforeFound, Nat.le_add_right _ _, by omega⟩
    refine (kept _ (by omega) fun alsoHere =>
      here (apart position index _ has alsoHere)).trans ?_
    rw [CodeStore.words, codePointer_hostAddress (by omega), content]
    rw [List.getElem?_eq_getElem inside] at atOffset
    exact Option.some.inj atOffset

/-- The store holds its blocks when the code of one of them is changed. -/
theorem Stored.patch :
    Stored translator (store.patch words) (blocks.set index new) ∧
      (store.patch words).CodeApart (blocks.set index new) := by
  have shapes {block : GuestBlock} (member : block ∈ blocks.set index new) :
      ∃ before ∈ blocks, before.SameShape block := by
    obtain ⟨position, atPosition⟩ := List.mem_iff_getElem?.mp member
    obtain ⟨before, beforeFound, shape, -⟩ := set_getElem? found same atPosition
    exact ⟨before, List.mem_of_getElem? beforeFound, shape⟩
  refine ⟨⟨⟨stored.held.code_wellFormed, stored.held.offsets_wellFormed, ?_,
    fun position block atPosition => stored.patch_storesBlock apart found same
      written kept atPosition, ?_⟩, ?_, ?_, ?_⟩, ?_⟩
  · rw [List.length_set]
    exact stored.held.length_blocks
  · exact stored.held.pages.congr (fun position page =>
      reaches_set_iff found same position page) fun _ _ _ => rfl
  · intro block member
    obtain ⟨before, beforeMember, shape⟩ := shapes member
    exact shape.placed (stored.placed before beforeMember)
  · intro block member
    obtain ⟨before, beforeMember, shape⟩ := shapes member
    exact shape.nonempty_iff.mpr (stored.nonempty before beforeMember)
  · rw [List.pairwise_iff_getElem]
    intro first second firstBound secondBound less address both
    obtain ⟨firstBefore, firstFound, firstShape, -⟩ := set_getElem? found same
      (List.getElem?_eq_getElem firstBound)
    obtain ⟨secondBefore, secondFound, secondShape, -⟩ := set_getElem? found
      same (List.getElem?_eq_getElem secondBound)
    obtain ⟨firstInside, rfl⟩ := List.getElem?_eq_some_iff.mp firstFound
    obtain ⟨secondInside, rfl⟩ := List.getElem?_eq_some_iff.mp secondFound
    rw [firstShape.contains_iff, secondShape.contains_iff] at both
    exact List.pairwise_iff_getElem.mp stored.disjoint first second firstInside
      secondInside less address both
  · intro first second pointer firstHas secondHas
    exact apart first second pointer
      ((hasCode_set_iff found same first pointer).mp firstHas)
      ((hasCode_set_iff found same second pointer).mp secondHas)

end Patch

/-! ## The update of a block -/

/-- The slot in front of a return address. -/
theorem slotStart_behind (start : Word) (count : Nat) :
    slotStart (CodeMemory.pointer start (count + batchSize)) =
      CodeMemory.pointer start count := by
  rw [slotStart, CodeMemory.pointer, CodeMemory.pointer, Nat.mul_add,
    BitVec.ofNat_add, ← BitVec.add_assoc, Nat.mul_comm 4 batchSize]
  exact add_sub_cancel_right _ _

theorem slotStart_pointer (pointer count : Nat) :
    slotStart (hostAddress (pointer + count + batchSize)) =
      hostAddress (pointer + count) := by
  have behind := slotStart_behind (hostAddress pointer) count
  rwa [CodeStore.hostAddress_add, CodeStore.hostAddress_add,
    ← Nat.add_assoc] at behind

theorem hostAddress_injective
    {first second : Nat}
    (firstBound : first < 2 ^ 62)
    (secondBound : second < 2 ^ 62)
    (same : hostAddress first = hostAddress second) : first = second := by
  rw [← codePointer_hostAddress firstBound, same,
    codePointer_hostAddress secondBound]

/-- What is written fits into the slot. -/
theorem updateBasicBlock_returns
    (store : CodeStore)
    (addr absoluteAddress : Word) :
    ∃ after, store.updateBasicBlock addr absoluteAddress = some after := by
  have few := length_jumpCode_le (slotStart addr) absoluteAddress
  obtain ⟨after, adds, -, -⟩ := @addAll_spec
    { address := slotStart addr, maxSize := batchSize, words := store.words }
    (jumpCode (slotStart addr) absoluteAddress) (by decide : 9 < 2 ^ 62)
    (by simpa using few)
  refine ⟨store.patch after.words, ?_⟩
  rw [CodeStore.updateBasicBlock, updateBasicBlock]
  rw [jumpCode] at adds
  split at adds <;> rename_i near <;> simp [near, adds]

/-- What `update_basic_block` leaves of a slot. -/
def updatedSlot (start target : Word) (slot : List Inst) : List Inst :=
  jumpCode start target ++ slot.drop (jumpCode start target).length

theorem length_updatedSlot
    {slot : List Inst}
    (full : slot.length = batchSize)
    (start target : Word) : (updatedSlot start target slot).length = batchSize := by
  have few := length_jumpCode_le start target
  rw [updatedSlot, List.length_append, List.length_drop]
  omega

/-- The words around a slot are the same, whatever is in it. -/
theorem getElem?_around
    {front first second behind : List Inst}
    (lengths : first.length = second.length)
    {position : Nat}
    (outside : ¬ (front.length ≤ position ∧
      position < front.length + first.length)) :
    (front ++ first ++ behind)[position]? =
      (front ++ second ++ behind)[position]? := by
  rw [List.append_assoc, List.append_assoc]
  rcases Nat.lt_or_ge position front.length with less | notLess
  · rw [List.getElem?_append_left less, List.getElem?_append_left less]
  · rw [List.getElem?_append_right notLess, List.getElem?_append_right notLess,
      List.getElem?_append_right (by omega),
      List.getElem?_append_right (by omega), lengths]

/-- `update_basic_block` changes the slot in front of an address, and the store
holds its blocks. -/
theorem Stored.updateBasicBlock
    {front slot behind : List Inst}
    {pointer : Nat}
    {target : Word}
    (stored : Stored translator store blocks)
    (apart : store.CodeApart blocks)
    (found : blocks[index]? = some old)
    (same : old.SameShape new)
    (starts : codePointer (store.block index).riscvStart = pointer)
    (full : slot.length = batchSize)
    (oldCode : hostCode old.instructions =
      (front ++ slot ++ behind).map Inst.encode)
    (newCode : hostCode new.instructions =
      (front ++ updatedSlot (hostAddress (pointer + front.length)) target slot ++
        behind).map Inst.encode) :
    ∃ after, store.updateBasicBlock
        (hostAddress (pointer + front.length + batchSize)) target =
          some after ∧
      Stored translator after (blocks.set index new) ∧
      after.CodeApart (blocks.set index new) ∧ after.blocks = store.blocks := by
  have entry := stored.held.stored index old found
  have code := entry.code
  have codeLt := entry.code_lt
  rw [starts, oldCode] at code codeLt
  rw [List.length_map] at codeLt
  have oldLength : (front ++ slot ++ behind).length =
      front.length + batchSize + behind.length := by
    simp only [List.length_append, full]
  have inSlot : HoldsCode store.words (hostAddress (pointer + front.length))
      slot := by
    rw [List.append_assoc, List.map_append, List.map_append] at code
    have middle := code.append_right.append_left
    rw [List.length_map] at middle
    exact holdsCode_words middle (by omega)
  rw [← slotStart_pointer] at inSlot
  obtain ⟨words, updates, held, others⟩ :=
    @updateBasicBlock_spec _ _ target slot inSlot full
  rw [slotStart_pointer] at held others
  -- The words that the update does not write.
  have unchanged : ∀ other < 2 ^ 62,
      ¬ (pointer + front.length ≤ other ∧
        other < pointer + front.length + batchSize) ->
        words (hostAddress other) = store.words (hostAddress other) := by
    intro other bound outside
    refine others _ fun offset inside equal => outside ?_
    rw [hostAddress_add] at equal
    have := hostAddress_injective bound (by omega) equal
    omega
  refine ⟨store.patch words, ?_, ?_⟩
  · rw [CodeStore.updateBasicBlock, updates]
    rfl
  suffices both : Stored translator (store.patch words) (blocks.set index new) ∧
      (store.patch words).CodeApart (blocks.set index new) from
    ⟨both.1, both.2, rfl⟩
  refine stored.patch apart found same ?_ ?_
  · intro position word atPosition
    have length := same.hostCode_length
    rw [oldCode, List.length_map] at length
    have inside := (List.getElem?_eq_some_iff.mp atPosition).1
    rw [length] at inside
    rw [starts]
    rw [newCode, List.getElem?_map, Option.map_eq_some_iff] at atPosition
    obtain ⟨inst, atPosition, rfl⟩ := atPosition
    have fullToo := length_updatedSlot full
      (hostAddress (pointer + front.length)) target
    by_cases here : front.length ≤ position ∧
        position < front.length + batchSize
    · obtain ⟨offset, rfl⟩ := Nat.exists_eq_add_of_le here.1
      rw [List.append_assoc, List.getElem?_append_right here.1,
        Nat.add_sub_cancel_left, List.getElem?_append_left (by omega)]
        at atPosition
      have there := held offset inst atPosition
      rwa [hostAddress_add, Nat.add_assoc] at there
    · rw [getElem?_around (fullToo.trans full.symm) (by rwa [fullToo])]
        at atPosition
      obtain ⟨-, content⟩ := code position inst.encode
        (by rw [List.getElem?_map, atPosition, Option.map_some])
      rw [unchanged _ (by omega) (by omega), CodeStore.words,
        codePointer_hostAddress (by omega), content]
  · intro other bound outside
    refine unchanged other bound fun inSlot => outside ⟨old, found, ?_⟩
    rw [starts, oldCode, List.length_map]
    omega

end CodeGenerator
end Oxtra

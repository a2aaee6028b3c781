import Oxtra.CodeStore.Pages

/-!
# What the code store holds while blocks are inserted

The store is compared with the blocks that were put into it: the guest
addresses of each block, the sizes of its instructions, and their host code.
Every instruction that is added keeps this, for blocks that do not overlap.
-/

namespace Oxtra

/-- An instruction that is added to a block: its size, and its host code. -/
structure Addition where
  size : BitVec 8
  code : List (BitVec 32)
  deriving DecidableEq, Repr

namespace Addition

/-- The sizes as they are stored. -/
def offset (addition : Addition) : InstructionOffset where
  x86 := addition.size.setWidth 6
  riscv := BitVec.ofNat _ (addition.code.length * 4)

/-- Both sizes fit into their bit-fields. -/
structure Encodable (addition : Addition) : Prop where
  size_pos : 0 < addition.size.toNat
  size_le : addition.size.toNat ≤ Fadec.maxInstructionSize
  code_le : addition.code.length ≤ maxRiscvInstructions

instance (addition : Addition) : Decidable addition.Encodable :=
  decidable_of_iff
    (0 < addition.size.toNat ∧
      addition.size.toNat ≤ Fadec.maxInstructionSize ∧
      addition.code.length ≤ maxRiscvInstructions)
    ⟨fun bounds => ⟨bounds.1, bounds.2.1, bounds.2.2⟩,
      fun encodable => ⟨encodable.size_pos, encodable.size_le,
        encodable.code_le⟩⟩

variable {addition : Addition}

theorem Encodable.x86_toNat
    (encodable : addition.Encodable) :
    addition.offset.x86.toNat = addition.size.toNat := by
  have sizeLe := encodable.size_le
  rw [Fadec.maxInstructionSize] at sizeLe
  rw [offset, BitVec.toNat_setWidth]
  omega

theorem Encodable.riscv_toNat
    (encodable : addition.Encodable) :
    addition.offset.riscv.toNat = 4 * addition.code.length := by
  have codeLe := encodable.code_le
  simp only [maxRiscvInstructions, maxRiscvInstructionsBits] at codeLe
  simp only [offset, BitVec.toNat_ofNat, maxRiscvInstructionsBits]
  omega

/-- Number of guest bytes of consecutive instructions. -/
def guestLength (additions : List Addition) : Nat :=
  (additions.map fun addition => addition.size.toNat).sum

/-- The host code of consecutive instructions. -/
def hostCode (additions : List Addition) : List (BitVec 32) :=
  additions.flatMap Addition.code

@[simp] theorem guestLength_nil : guestLength [] = 0 := rfl

@[simp] theorem guestLength_cons (first : Addition) (rest : List Addition) :
    guestLength (first :: rest) = first.size.toNat + guestLength rest := rfl

@[simp] theorem guestLength_append (first second : List Addition) :
    guestLength (first ++ second) = guestLength first + guestLength second := by
  simp [guestLength]

@[simp] theorem hostCode_nil : hostCode [] = [] := rfl

@[simp] theorem hostCode_cons (first : Addition) (rest : List Addition) :
    hostCode (first :: rest) = first.code ++ hostCode rest := rfl

@[simp] theorem hostCode_append (first second : List Addition) :
    hostCode (first ++ second) = hostCode first ++ hostCode second := by
  simp [hostCode]

theorem guestLength_pos
    {additions : List Addition}
    (nonempty : additions ≠ [])
    (encodable : ∀ addition ∈ additions, addition.Encodable) :
    0 < guestLength additions := by
  cases additions with
  | nil => exact absurd rfl nonempty
  | cons first rest =>
      have positive := (encodable first (List.mem_cons_self ..)).size_pos
      rw [guestLength_cons]
      omega

end Addition

open Addition (guestLength hostCode)

/-- A block of guest code: its address, and its instructions one behind the
other. -/
structure GuestBlock where
  start : BitVec 64
  instructions : List Addition
  deriving DecidableEq, Repr

namespace GuestBlock

/-- The address behind the last instruction. -/
def stop (block : GuestBlock) : Nat :=
  block.start.toNat + guestLength block.instructions

/-- The address lies in the block. -/
def Contains (block : GuestBlock) (address : BitVec 64) : Prop :=
  block.start.toNat ≤ address.toNat ∧ address.toNat < block.stop

/-- No address lies in both blocks. -/
def Disjoint (first second : GuestBlock) : Prop :=
  ∀ address, ¬(first.Contains address ∧ second.Contains address)

/-- The block lies in the image and ends before the image does, and its
instructions can be stored. -/
structure Placed (elf : Elf) (block : GuestBlock) : Prop where
  start_ge : elf.base.toNat ≤ block.start.toNat
  stop_lt : block.stop < elf.base.toNat + elf.size.toNat
  encodable : ∀ addition ∈ block.instructions, addition.Encodable

instance (elf : Elf) (block : GuestBlock) : Decidable (block.Placed elf) :=
  decidable_of_iff
    (elf.base.toNat ≤ block.start.toNat ∧
      block.stop < elf.base.toNat + elf.size.toNat ∧
      ∀ addition ∈ block.instructions, addition.Encodable)
    ⟨fun bounds => ⟨bounds.1, bounds.2.1, bounds.2.2⟩,
      fun placed => ⟨placed.start_ge, placed.stop_lt, placed.encodable⟩⟩

/-- The block lies in the image, and its instructions can be stored. -/
structure InImage (elf : Elf) (block : GuestBlock) : Prop where
  contains : elf.Contains block.start
  stop_le : block.stop ≤ elf.base.toNat + elf.size.toNat
  encodable : ∀ addition ∈ block.instructions, addition.Encodable

instance (elf : Elf) (block : GuestBlock) : Decidable (block.InImage elf) :=
  decidable_of_iff
    (elf.Contains block.start ∧
      block.stop ≤ elf.base.toNat + elf.size.toNat ∧
      ∀ addition ∈ block.instructions, addition.Encodable)
    ⟨fun bounds => ⟨bounds.1, bounds.2.1, bounds.2.2⟩,
      fun inImage => ⟨inImage.contains, inImage.stop_le, inImage.encodable⟩⟩

variable {elf : Elf} {first second block : GuestBlock}

theorem Placed.start_lt_stop
    (placed : block.Placed elf)
    (nonempty : block.instructions ≠ []) :
    block.start.toNat < block.stop := by
  have positive := Addition.guestLength_pos nonempty placed.encodable
  rw [stop]
  omega

instance : Std.Symm GuestBlock.Disjoint :=
  ⟨fun _ _ apart address both => apart address both.symm⟩

/-- Of two blocks that do not overlap, one lies in front of the other. -/
theorem Disjoint.ordered
    (disjoint : first.Disjoint second)
    (firstNonempty : first.start.toNat < first.stop)
    (secondNonempty : second.start.toNat < second.stop) :
    first.stop ≤ second.start.toNat ∨ second.stop ≤ first.start.toNat := by
  by_contra overlap
  rcases Nat.le_total first.start.toNat second.start.toNat with le | le
  · exact disjoint second.start ⟨⟨le, by omega⟩, le_rfl, secondNonempty⟩
  · exact disjoint first.start ⟨⟨le_rfl, firstNonempty⟩, le, by omega⟩

theorem Disjoint.of_le
    (le : first.stop ≤ second.start.toNat) :
    first.Disjoint second := by
  rintro address ⟨inFirst, inSecond⟩
  have below := inFirst.2
  have above := inSecond.1
  omega

/-- A block whose last instructions are left out. -/
theorem Disjoint.of_initial
    {start : BitVec 64}
    {front back : List Addition}
    (disjoint : first.Disjoint ⟨start, front ++ back⟩) :
    first.Disjoint ⟨start, front⟩ := by
  intro address both
  refine disjoint address ⟨both.1, both.2.1, ?_⟩
  have below := both.2.2
  simp only [stop, Addition.guestLength_append] at *
  omega

theorem Placed.of_initial
    {start : BitVec 64}
    {front back : List Addition}
    (placed : Placed elf ⟨start, front ++ back⟩) :
    Placed elf ⟨start, front⟩ where
  start_ge := placed.start_ge
  stop_lt := by
    have stopLt := placed.stop_lt
    simp only [stop, Addition.guestLength_append] at *
    omega
  encodable := fun addition member =>
    placed.encodable addition (List.mem_append_left _ member)

end GuestBlock

namespace CodeStore

variable {elf : Elf} {memory : Memory}

/-! ## What is kept -/

/-- The block of this index reaches into the page. -/
def Reaches
    (elf : Elf)
    (blocks : List GuestBlock)
    (index page : Nat) : Prop :=
  ∃ block, blocks[index]? = some block ∧ block.instructions ≠ [] ∧
    elf.pageOfNat block.start.toNat ≤ page ∧ page ≤ elf.pageOfNat block.stop

/-- An entry describes a block, and its host code and the sizes of its
instructions are stored. -/
structure StoresBlock
    (memory : Memory)
    (store : CodeStore)
    (entry : BlockEntry)
    (block : GuestBlock) : Prop where
  count : entry.instructionCount = block.instructions.length
  starts : block.instructions ≠ [] -> entry.x86Start = block.start
  stops : block.instructions ≠ [] -> entry.x86End.toNat = block.stop
  aligned : entry.riscvStart = hostAddress (codePointer entry.riscvStart)
  located : block.instructions ≠ [] -> codePointer entry.riscvStart ≠ 0
  code : store.codeBuffer.Stores memory.code (codePointer entry.riscvStart)
    (hostCode block.instructions)
  code_lt : codePointer entry.riscvStart +
    (hostCode block.instructions).length < 2 ^ 62
  offsets : store.instructionOffsetBuffer.Stores memory.offsets entry.offsets
    (block.instructions.map Addition.offset)

/-- The store holds the blocks, in the order in which they were created. -/
structure Holds
    (elf : Elf)
    (memory : Memory)
    (store : CodeStore)
    (blocks : List GuestBlock) : Prop where
  code_wellFormed : store.codeBuffer.WellFormed memory.code
  offsets_wellFormed : store.instructionOffsetBuffer.WellFormed memory.offsets
  length_blocks : store.blocks.length = blocks.length
  stored : ∀ index block, blocks[index]? = some block ->
    StoresBlock memory store (store.block index) block
  pages : PagesHold elf store.start (Reaches elf blocks) store.pages

/-- The free elements of both buffers follow the block of this index. -/
structure Growing
    (memory : Memory)
    (store : CodeStore)
    (index : Nat)
    (instructions : List Addition) : Prop where
  code : store.codeBuffer.Ends memory.code
    (codePointer (store.block index).riscvStart) (hostCode instructions)
  offsets : store.instructionOffsetBuffer.Ends memory.offsets
    (store.block index).offsets (instructions.map Addition.offset)

/-! ## Entries of blocks -/

section Entries

variable {store after : CodeStore} {blocks : List GuestBlock}

theorem block_set_self
    {entries : List BlockEntry}
    {index : Nat}
    {entry : BlockEntry}
    (bound : index < entries.length) :
    (entries.set index entry).getD index {} = entry := by
  simp [List.getD_eq_getElem?_getD, bound]

theorem block_set_of_ne
    {entries : List BlockEntry}
    {index other : Nat}
    {entry : BlockEntry}
    (different : other ≠ index) :
    (entries.set index entry).getD other {} = entries.getD other {} := by
  simp [List.getD_eq_getElem?_getD, List.getElem?_set_ne different.symm]

theorem codePointer_hostAddress
    {pointer : Nat}
    (bound : pointer < 2 ^ 62) :
    codePointer (hostAddress pointer) = pointer := by
  simp only [codePointer, hostAddress, BitVec.toNat_ofNat]
  omega

/-- A block that stays where it is. -/
theorem StoresBlock.of_extends
    {entry : BlockEntry}
    {block : GuestBlock}
    (stored : StoresBlock memory store entry block)
    (codeKept : store.codeBuffer.Extends memory.code after.codeBuffer)
    (offsetsKept : store.instructionOffsetBuffer.Extends memory.offsets
      after.instructionOffsetBuffer) :
    StoresBlock memory after entry block :=
  { stored with
    code := stored.code.of_extends codeKept
    offsets := stored.offsets.of_extends offsetsKept }

theorem reaches_concat
    (blocks : List GuestBlock)
    (last : GuestBlock)
    (index page : Nat) :
    Reaches elf (blocks ++ [last]) index page ↔
      (index = blocks.length ∧ last.instructions ≠ [] ∧
        elf.pageOfNat last.start.toNat ≤ page ∧
          page ≤ elf.pageOfNat last.stop) ∨
        Reaches elf blocks index page := by
  constructor
  · rintro ⟨block, found, reached⟩
    rcases Nat.lt_trichotomy index blocks.length with less | rfl | greater
    · rw [List.getElem?_append_left less] at found
      exact Or.inr ⟨block, found, reached⟩
    · rw [List.getElem?_concat_length] at found
      obtain rfl := Option.some.inj found
      exact Or.inl ⟨rfl, reached⟩
    · rw [List.getElem?_eq_none (by rw [List.length_append]; exact greater)]
        at found
      cases found
  · rintro (⟨rfl, reached⟩ | ⟨block, found, reached⟩)
    · exact ⟨last, List.getElem?_concat_length, reached⟩
    · have bound := (List.getElem?_eq_some_iff.mp found).1
      exact ⟨block, by rwa [List.getElem?_append_left bound], reached⟩

theorem Reaches.index_lt
    {index page : Nat}
    (reached : Reaches elf blocks index page) :
    index < blocks.length := by
  obtain ⟨block, found, _⟩ := reached
  exact (List.getElem?_eq_some_iff.mp found).1

/-- A block that reaches into a page lies in front of a new block that does
not overlap with it, or behind it. -/
theorem Holds.reaches_ordered
    {index page : Nat}
    {last new : GuestBlock}
    (held : Holds elf memory store (blocks ++ [last]))
    (placed : ∀ block ∈ blocks, block.Placed elf)
    (nonempty : new.start.toNat < new.stop)
    (disjoint : ∀ block ∈ blocks, block.Disjoint new)
    (reached : Reaches elf blocks index page) :
    ∃ block : GuestBlock, store.start index = block.start ∧
      block.start.toNat < block.stop ∧
      elf.pageOfNat block.start.toNat ≤ page ∧
      page ≤ elf.pageOfNat block.stop ∧
      (block.stop ≤ new.start.toNat ∨ new.stop ≤ block.start.toNat) := by
  have less := reached.index_lt
  obtain ⟨block, found, instructions, low, high⟩ := reached
  have member := List.mem_of_getElem? found
  have stored := held.stored index block
    (by rwa [List.getElem?_append_left less])
  have blockNonempty := (placed block member).start_lt_stop instructions
  exact ⟨block, stored.starts instructions, blockNonempty, low, high,
    (disjoint block member).ordered blockNonempty nonempty⟩

end Entries

/-! ## The three steps of `add_instruction` -/

section Step

variable {store after : CodeStore} {blocks : List GuestBlock}

/-- The entry of a block after an instruction was added to its buffers. -/
def grownEntry
    (entry : BlockEntry)
    (address : BitVec 64)
    (size : BitVec 8)
    (riscvStart offsets : Nat) : BlockEntry where
  x86Start := entry.x86Start
  x86End := address + size.setWidth 64
  riscvStart := hostAddress riscvStart
  instructionCount := entry.instructionCount + 1
  offsets := offsets

/-- What `add_instruction` does if it does not fault. -/
theorem addInstruction_cases
    {index : Nat}
    {address : BitVec 64}
    {addition : Addition}
    (added : store.addInstruction elf memory index address addition.size
      addition.code = .ok after) :
    ∃ inserted riscvStart codeBuffer offsets offsetBuffer,
      store.insertBlock elf index address = .ok inserted ∧
      inserted.codeBuffer.add memory.code
          (codePointer (inserted.block index).riscvStart) addition.code =
        (riscvStart, codeBuffer) ∧ riscvStart ≠ 0 ∧
      inserted.instructionOffsetBuffer.add memory.offsets
          (inserted.block index).offsets [addition.offset] =
        (offsets, offsetBuffer) ∧ offsets ≠ 0 ∧
      CodeStore.spillBlock elf
        { pages := inserted.pages
          blocks := inserted.blocks.set index
            (grownEntry (inserted.block index) address addition.size
              riscvStart offsets)
          codeBuffer := codeBuffer
          instructionOffsetBuffer := offsetBuffer } index = .ok after := by
  unfold addInstruction at added
  cases inserts : store.insertBlock elf index address with
  | error fault => simp [inserts, bind, Except.bind] at added
  | ok inserted =>
      simp only [inserts, bind, Except.bind, throw, throwThe,
        MonadExceptOf.throw] at added
      split at added
      · cases added
      · rename_i codeAdded
        split at added
        · cases added
        · rename_i offsetAdded
          exact ⟨inserted, _, _, _, _, rfl, rfl, codeAdded, rfl, offsetAdded,
            added⟩

/-- The start of a block is entered with its first instruction. -/
def enterStart
    (store : CodeStore)
    (index : Nat)
    (start : BitVec 64) : CodeStore :=
  store.setBlock index { store.block index with x86Start := start }

theorem enterStart_start_self
    {index : Nat}
    {address : BitVec 64}
    (bound : index < store.blocks.length) :
    (store.enterStart index address).start index = address := by
  simp [start, block, enterStart, setBlock, List.getD_eq_getElem?_getD, bound]

theorem enterStart_start_of_ne
    {index other : Nat}
    {address : BitVec 64}
    (different : other ≠ index) :
    (store.enterStart index address).start other = store.start other := by
  simp only [start, block, enterStart, setBlock, block_set_of_ne different]

theorem enterStart_eq_self
    {index : Nat}
    (bound : index < store.blocks.length) :
    store.enterStart index (store.start index) = store := by
  have same : store.blocks.set index (store.block index) = store.blocks := by
    simp [block, List.getD_eq_getElem?_getD, bound]
  show { store with blocks := store.blocks.set index (store.block index) } =
    store
  rw [same]

theorem insertBlock_of_new
    {index : Nat}
    {address : BitVec 64}
    {entries : List Nat}
    (new : (store.block index).instructionCount = 0)
    (pageOk : store.page (getPageIndex elf address) = .ok entries) :
    store.insertBlock elf index address =
      .ok ((store.enterStart index address).setPage (getPageIndex elf address)
        ((store.enterStart index address).insertSorted address index
          entries)) := by
  have enteredPage :
      (store.enterStart index address).page (getPageIndex elf address) =
        .ok entries := pageOk
  unfold insertBlock
  rw [if_pos new]
  show (store.enterStart index address).page (getPageIndex elf address) >>= _ =
    _
  rw [enteredPage]
  rfl

/-- The first instruction of a block puts it into the page of its start;
nothing happens before the further ones. -/
theorem insertBlock_spec
    {start address : BitVec 64}
    {front : List Addition}
    {inserted : CodeStore}
    (held : Holds elf memory store (blocks ++ [⟨start, front⟩]))
    (placed : GuestBlock.Placed elf ⟨start, front⟩)
    (different : front = [] ->
      ∀ other page, Reaches elf blocks other page ->
        store.start other ≠ start)
    (follows : address.toNat = GuestBlock.stop ⟨start, front⟩)
    (inserts : store.insertBlock elf blocks.length address = .ok inserted) :
    ∃ pages,
      inserted = { store.enterStart blocks.length start with pages := pages } ∧
      PagesHold elf (store.enterStart blocks.length start).start
        (fun other page =>
          (other = blocks.length ∧ elf.pageOfNat start.toNat ≤ page ∧
            page ≤ elf.pageOfNat (GuestBlock.stop ⟨start, front⟩)) ∨
          Reaches elf blocks other page)
        pages := by
  have bound : blocks.length < store.blocks.length := by
    rw [held.length_blocks]
    simp
  have stored := held.stored blocks.length ⟨start, front⟩
    List.getElem?_concat_length
  have startLow : elf.base.toNat ≤ start.toNat := placed.start_ge
  cases front with
  | nil =>
      obtain rfl : address = start := BitVec.eq_of_toNat_eq follows
      have inImage := Elf.pageOfNat_lt startLow placed.stop_lt
      obtain ⟨entries, found, pageOk⟩ := held.pages.page inImage
      rw [insertBlock_of_new stored.count
        (by rwa [getPageIndex_eq startLow])] at inserts
      obtain rfl := Except.ok.inj inserts
      have noneYet (other page : Nat) :
          Reaches elf (blocks ++ [⟨address, []⟩]) other page ↔
            Reaches elf blocks other page := by
        simp [reaches_concat]
      have entered : PagesHold elf (store.enterStart blocks.length address).start
          (Reaches elf blocks) store.pages :=
        held.pages.congr (fun other page => (noneYet other page).symm)
          fun other page reached => enterStart_start_of_ne
            ((noneYet other page).mp reached).index_lt.ne
      obtain ⟨sorted, members⟩ := entered.2 _ _ found
      refine ⟨_, rfl, ?_⟩
      rw [getPageIndex_eq startLow]
      refine @PagesHold.set _ _ _ _ blocks.length _ _ entered ?_ ?_ _ ?_
      · have inserted := @sorted_insertSorted _ blocks.length _ sorted
          fun other member => by
            have reached := (members other).mp member
            rw [enterStart_start_self bound,
              enterStart_start_of_ne reached.index_lt.ne]
            exact different rfl other _ reached
        rwa [enterStart_start_self bound] at inserted
      · intro other
        rw [mem_insertSorted, members]
      · intro other page
        rw [GuestBlock.stop]
        constructor
        · rintro (⟨rfl, low, high⟩ | reached)
          · exact Or.inl ⟨rfl, Nat.le_antisymm high low⟩
          · exact Or.inr reached
        · rintro (⟨rfl, rfl⟩ | reached)
          · exact Or.inl ⟨rfl, le_rfl, le_rfl⟩
          · exact Or.inr reached
  | cons first rest =>
      have startEq : store.start blocks.length = start :=
        stored.starts (by simp)
      have consecutive : (store.block blocks.length).x86End = address :=
        BitVec.eq_of_toNat_eq ((stored.stops (by simp)).trans follows.symm)
      simp only [insertBlock, stored.count, consecutive, ne_eq,
        not_true_eq_false, if_false, List.length_cons, Nat.succ_ne_zero]
        at inserts
      obtain rfl := Except.ok.inj inserts
      have unchanged := @enterStart_eq_self store blocks.length bound
      rw [startEq] at unchanged
      refine ⟨store.pages, by rw [unchanged], ?_⟩
      rw [unchanged]
      refine held.pages.congr ?_ fun _ _ _ => rfl
      intro other page
      simp [reaches_concat]

/-! ## One instruction, and all instructions of a block -/

theorem enterStart_block_self
    {index : Nat}
    {address : BitVec 64}
    (bound : index < store.blocks.length) :
    (store.enterStart index address).block index =
      { store.block index with x86Start := address } := by
  simp only [enterStart, setBlock, block, block_set_self bound]

theorem enterStart_block_of_ne
    {index other : Nat}
    {address : BitVec 64}
    (different : other ≠ index) :
    (store.enterStart index address).block other = store.block other := by
  simp only [enterStart, setBlock, block, block_set_of_ne different]

/-- The store behind the buffers: an instruction is added to a block that starts
at an address. -/
def growBlock
    (store : CodeStore)
    (index : Nat)
    (start address : BitVec 64)
    (size : BitVec 8)
    (riscvStart offsets : Nat)
    (codeBuffer : StaticList (BitVec 32))
    (offsetBuffer : StaticList InstructionOffset)
    (pages : List (List Nat)) : CodeStore where
  pages := pages
  blocks := (store.enterStart index start).blocks.set index
    (grownEntry ((store.enterStart index start).block index) address size
      riscvStart offsets)
  codeBuffer := codeBuffer
  instructionOffsetBuffer := offsetBuffer

section GrowBlock

variable {index : Nat} {start address : BitVec 64} {size : BitVec 8}
variable {riscvStart offsets : Nat} {codeBuffer : StaticList (BitVec 32)}
variable {offsetBuffer : StaticList InstructionOffset}
variable {pages : List (List Nat)}

theorem growBlock_block_self (bound : index < store.blocks.length) :
    (store.growBlock index start address size riscvStart offsets codeBuffer
      offsetBuffer pages).block index =
        grownEntry { store.block index with x86Start := start } address size
          riscvStart offsets := by
  rw [← enterStart_block_self bound, growBlock, block, block_set_self]
  simpa [enterStart, setBlock] using bound

theorem growBlock_block_of_ne {other : Nat} (different : other ≠ index) :
    (store.growBlock index start address size riscvStart offsets codeBuffer
      offsetBuffer pages).block other = store.block other := by
  rw [growBlock, block, block_set_of_ne different]
  exact enterStart_block_of_ne different

theorem growBlock_start (bound : index < store.blocks.length) :
    (store.growBlock index start address size riscvStart offsets codeBuffer
      offsetBuffer pages).start = (store.enterStart index start).start := by
  funext other
  by_cases same : other = index
  · subst same
    rw [CodeStore.start, CodeStore.start, growBlock_block_self bound,
      enterStart_block_self bound]
    rfl
  · rw [CodeStore.start, CodeStore.start, growBlock_block_of_ne same,
      enterStart_block_of_ne same]

end GrowBlock

/-- The entry of the newest block describes the block with its new
instruction. -/
theorem StoresBlock.grown
    {entry : BlockEntry}
    {start address : BitVec 64}
    {front : List Addition}
    {addition : Addition}
    {riscvStart offsets : Nat}
    (stored : StoresBlock memory store entry ⟨start, front⟩)
    (endEq : (address + addition.size.setWidth 64).toNat =
      GuestBlock.stop ⟨start, front ++ [addition]⟩)
    (codeWellFormed : after.codeBuffer.WellFormed memory.code)
    (codeNotNull : riscvStart ≠ 0)
    (codeEnds : after.codeBuffer.Ends memory.code riscvStart
      (hostCode front ++ addition.code))
    (offsetsEnd : after.instructionOffsetBuffer.Ends memory.offsets offsets
      (front.map Addition.offset ++ [addition.offset])) :
    StoresBlock memory after
      (grownEntry { entry with x86Start := start } address addition.size
        riscvStart offsets)
      ⟨start, front ++ [addition]⟩ := by
  have codeLt := codeEnds.length_lt codeWellFormed
  have pointerEq : codePointer (hostAddress riscvStart) = riscvStart :=
    codePointer_hostAddress (by omega)
  exact
    { count := by simp [grownEntry, stored.count]
      starts := fun _ => rfl
      stops := fun _ => endEq
      aligned := by rw [grownEntry, pointerEq]
      located := fun _ => by rwa [grownEntry, pointerEq]
      code := by simpa [grownEntry, pointerEq] using codeEnds.stores
      code_lt := by simpa [grownEntry, pointerEq] using codeLt
      offsets := by simpa [grownEntry] using offsetsEnd.stores }

/-- An instruction adds at most one page to those of its block. -/
theorem reaches_grown
    {start : BitVec 64}
    {front : List Addition}
    {addition : Addition}
    (encodable : addition.Encodable)
    (blocks : List GuestBlock)
    (other page : Nat) :
    Reaches elf (blocks ++ [⟨start, front ++ [addition]⟩]) other page ↔
      other = blocks.length ∧
          page = elf.pageOfNat (GuestBlock.stop ⟨start, front ++ [addition]⟩) ∨
        (other = blocks.length ∧ elf.pageOfNat start.toNat ≤ page ∧
          page ≤ elf.pageOfNat (GuestBlock.stop ⟨start, front⟩)) ∨
        Reaches elf blocks other page := by
  have newStop : GuestBlock.stop ⟨start, front ++ [addition]⟩ =
      GuestBlock.stop ⟨start, front⟩ + addition.size.toNat := by
    simp [GuestBlock.stop, Nat.add_assoc]
  have short : addition.size.toNat ≤ pageSize := by
    have sizeLe := encodable.size_le
    simp only [Fadec.maxInstructionSize, pageSize] at *
    omega
  have spread := @Elf.pageOfNat_add_le elf
    (GuestBlock.stop ⟨start, front⟩) _ short
  rw [← newStop] at spread
  have grows : elf.pageOfNat (GuestBlock.stop ⟨start, front⟩) ≤
      elf.pageOfNat (GuestBlock.stop ⟨start, front ++ [addition]⟩) :=
    Elf.pageOfNat_mono (by omega)
  have starts : elf.pageOfNat start.toNat ≤
      elf.pageOfNat (GuestBlock.stop ⟨start, front⟩) :=
    Elf.pageOfNat_mono (by simp [GuestBlock.stop])
  rw [reaches_concat]
  constructor
  · rintro (⟨rfl, _, low, high⟩ | reached)
    · simp only at low
      by_cases here :
          page = elf.pageOfNat (GuestBlock.stop ⟨start, front ++ [addition]⟩)
      · exact Or.inl ⟨rfl, here⟩
      · exact Or.inr (Or.inl ⟨rfl, low, by omega⟩)
    · exact Or.inr (Or.inr reached)
  · rintro (⟨rfl, rfl⟩ | ⟨rfl, low, high⟩ | reached)
    · exact Or.inl ⟨rfl, by simp, starts.trans grows, le_rfl⟩
    · exact Or.inl ⟨rfl, by simp, low, by omega⟩
    · exact Or.inr reached

/-- An instruction that is added to the newest block is held behind the
instructions that the block already has. -/
theorem addInstruction_holds
    {start address : BitVec 64}
    {front : List Addition}
    {addition : Addition}
    (held : Holds elf memory store (blocks ++ [⟨start, front⟩]))
    (growing : Growing memory store blocks.length front)
    (placed : ∀ block ∈ blocks, block.Placed elf)
    (newPlaced : GuestBlock.Placed elf ⟨start, front ++ [addition]⟩)
    (disjoint : ∀ block ∈ blocks,
      block.Disjoint ⟨start, front ++ [addition]⟩)
    (follows : address.toNat = GuestBlock.stop ⟨start, front⟩)
    (added : store.addInstruction elf memory blocks.length address
      addition.size addition.code = .ok after) :
    Holds elf memory after (blocks ++ [⟨start, front ++ [addition]⟩]) ∧
      Growing memory after blocks.length (front ++ [addition]) := by
  have bound : blocks.length < store.blocks.length := by
    rw [held.length_blocks]
    simp
  have stored := held.stored blocks.length ⟨start, front⟩
    List.getElem?_concat_length
  have encodable := newPlaced.encodable addition (by simp)
  have nonempty : start.toNat <
      GuestBlock.stop ⟨start, front ++ [addition]⟩ :=
    newPlaced.start_lt_stop (by simp)
  have startLow : elf.base.toNat ≤ start.toNat := newPlaced.start_ge
  have stopLt := newPlaced.stop_lt
  have newStop : GuestBlock.stop ⟨start, front ++ [addition]⟩ =
      address.toNat + addition.size.toNat := by
    rw [follows]
    simp [GuestBlock.stop, Nat.add_assoc]
  have endEq : (address + addition.size.setWidth 64).toNat =
      GuestBlock.stop ⟨start, front ++ [addition]⟩ := by
    have endLt := elf.end_lt
    rw [newStop] at stopLt ⊢
    rw [BitVec.toNat_add, BitVec.toNat_setWidth]
    omega
  have ordered {other page : Nat} (reached : Reaches elf blocks other page) :=
    held.reaches_ordered placed nonempty disjoint reached
  -- The three steps: the page of the start, the buffers, the page of the end.
  obtain ⟨inserted, riscvStart, codeBuffer, offsets, offsetBuffer, inserts,
    codeAdded, codeNotNull, offsetAdded, offsetNotNull, spilled⟩ :=
      addInstruction_cases added
  obtain ⟨pages, rfl, pagesHold⟩ := insertBlock_spec held newPlaced.of_initial
    (by
      intro _ other page reached same
      obtain ⟨block, startEq, blockNonempty, _, _, order⟩ := ordered reached
      have sameStart := congrArg BitVec.toNat (same.symm.trans startEq)
      simp only at order
      omega)
    follows inserts
  have entered := @enterStart_block_self store blocks.length start bound
  change StaticList.add memory.code store.codeBuffer
    (codePointer ((store.enterStart blocks.length start).block
      blocks.length).riscvStart) addition.code = _ at codeAdded
  change StaticList.add memory.offsets store.instructionOffsetBuffer
    ((store.enterStart blocks.length start).block blocks.length).offsets
      [addition.offset] = _ at offsetAdded
  rw [entered] at codeAdded offsetAdded
  have few : addition.code.length < 2 ^ 62 := by
    have codeLe := encodable.code_le
    simp only [maxRiscvInstructions, maxRiscvInstructionsBits] at codeLe
    omega
  obtain ⟨codeWellFormed, codeKept, codeEnds⟩ :=
    StaticList.add_spec held.code_wellFormed growing.code few codeAdded
      codeNotNull
  obtain ⟨offsetsWellFormed, offsetsKept, offsetsEnd⟩ :=
    StaticList.add_spec held.offsets_wellFormed growing.offsets
      (by simp) offsetAdded offsetNotNull
  let grown := store.growBlock blocks.length start address addition.size
    riscvStart offsets codeBuffer offsetBuffer pages
  change CodeStore.spillBlock elf grown blocks.length = .ok after at spilled
  have grownBlock : grown.block blocks.length =
      grownEntry { store.block blocks.length with x86Start := start } address
        addition.size riscvStart offsets := growBlock_block_self bound
  have grownOther {other : Nat} (different : other ≠ blocks.length) :
      grown.block other = store.block other := growBlock_block_of_ne different
  have grownStart : grown.start =
      (store.enterStart blocks.length start).start := growBlock_start bound
  rw [← grownStart] at pagesHold
  have grownStartEq : (grown.block blocks.length).x86Start = start := by
    rw [grownBlock]
    rfl
  have grownEnd : (grown.block blocks.length).x86End.toNat =
      GuestBlock.stop ⟨start, front ++ [addition]⟩ := by
    rw [grownBlock]
    exact endEq
  obtain ⟨pages', rfl, spilledPages⟩ := spillBlock_spec
    pagesHold (by rw [grownStartEq]; exact startLow)
    (by rw [grownEnd]; omega) (congrArg elf.pageOfNat grownEnd.symm)
    (Elf.pageOfNat_lt (by omega) stopLt)
    (Or.inl ⟨rfl, by rw [grownStartEq],
      by rw [grownStartEq]; exact Elf.pageOfNat_mono (by simp [GuestBlock.stop])⟩)
    (by rw [grownStartEq, grownEnd]; exact nonempty.le)
    (by
      rw [grownStartEq]
      rintro further other (⟨same, _⟩ | reached)
      · exact Or.inl same
      · obtain ⟨block, startEq, blockNonempty, low, high, order⟩ :=
          ordered reached
        rw [CodeStore.start, CodeStore.start,
          grownOther reached.index_lt.ne, grownStartEq]
        right
        rw [CodeStore.start] at startEq
        rw [startEq, BitVec.lt_def]
        rcases order with inFront | behind
        · have samePage := @Elf.pageOfNat_mono elf _ _ inFront
          simp only at samePage
          omega
        · omega)
    spilled
  have grownStored : StoresBlock memory { grown with pages := pages' }
      (grown.block blocks.length) ⟨start, front ++ [addition]⟩ := by
    rw [grownBlock]
    exact stored.grown endEq codeWellFormed codeNotNull codeEnds offsetsEnd
  refine ⟨
    { code_wellFormed := codeWellFormed
      offsets_wellFormed := offsetsWellFormed
      length_blocks := ?_
      stored := ?_
      pages := ?_ },
    { code := ?_
      offsets := ?_ }⟩
  · simpa [grown, growBlock, enterStart, setBlock] using held.length_blocks
  · intro index block found
    rcases Nat.lt_trichotomy index blocks.length with less | rfl | greater
    · rw [List.getElem?_append_left less] at found
      change StoresBlock memory _ (grown.block index) block
      rw [grownOther less.ne]
      exact (held.stored index block
        (by rwa [List.getElem?_append_left less])).of_extends codeKept offsetsKept
    · rw [List.getElem?_concat_length] at found
      obtain rfl := Option.some.inj found
      exact grownStored
    · rw [List.getElem?_eq_none (by rw [List.length_append]; exact greater)]
        at found
      cases found
  · refine spilledPages.congr ?_ fun _ _ _ => rfl
    intro other page
    exact reaches_grown encodable blocks other page
  · change StaticList.Ends memory.code codeBuffer
      (codePointer (grown.block blocks.length).riscvStart) _
    rw [grownBlock]
    have codeLt := codeEnds.length_lt codeWellFormed
    rw [grownEntry, codePointer_hostAddress (by omega)]
    simpa using codeEnds
  · change StaticList.Ends memory.offsets offsetBuffer
      (grown.block blocks.length).offsets _
    rw [grownBlock]
    simpa [grownEntry] using offsetsEnd

/-- A new block holds nothing, and both buffers may continue with it. -/
theorem createBlock_holds
    (held : Holds elf memory store blocks)
    (start : BitVec 64) :
    store.createBlock.1 = blocks.length ∧
      Holds elf memory store.createBlock.2 (blocks ++ [⟨start, []⟩]) ∧
      Growing memory store.createBlock.2 blocks.length [] := by
  have newest : store.createBlock.2.block blocks.length = {} := by
    simp [createBlock, block, ← held.length_blocks]
  have earlier {index : Nat} (less : index < blocks.length) :
      store.createBlock.2.block index = store.block index := by
    rw [← held.length_blocks] at less
    simp only [createBlock, block, List.getD_eq_getElem?_getD]
    rw [List.getElem?_append_left less]
  refine ⟨held.length_blocks,
    { code_wellFormed := held.code_wellFormed
      offsets_wellFormed := held.offsets_wellFormed
      length_blocks := ?_
      stored := ?_
      pages := ?_ },
    { code := ?_
      offsets := ?_ }⟩
  · simp [createBlock, held.length_blocks]
  · intro index other found
    rcases Nat.lt_trichotomy index blocks.length with less | rfl | greater
    · rw [List.getElem?_append_left less] at found
      rw [earlier less]
      exact (held.stored index other found).of_extends StaticList.Extends.refl
        StaticList.Extends.refl
    · rw [List.getElem?_concat_length] at found
      obtain rfl := Option.some.inj found
      rw [newest]
      exact
        { count := rfl
          starts := fun nonempty => absurd rfl nonempty
          stops := fun nonempty => absurd rfl nonempty
          aligned := rfl
          located := fun nonempty => absurd rfl nonempty
          code := StaticList.Stores.nil _
          code_lt := by simp [codePointer]
          offsets := StaticList.Stores.nil _ }
    · rw [List.getElem?_eq_none (by rw [List.length_append]; exact greater)]
        at found
      cases found
  · refine held.pages.congr ?_ ?_
    · intro index page
      simp [reaches_concat]
    · intro index page reached
      rw [CodeStore.start, CodeStore.start, earlier reached.index_lt]
  · rw [newest]
    exact StaticList.Ends.new
  · rw [newest]
    exact StaticList.Ends.new

end Step

section Run

variable (elf memory)

/-- Consecutive calls of `add_instruction` for one block. -/
def addInstructions (index : Nat) :
    CodeStore -> BitVec 64 -> List Addition -> Except Fault CodeStore
  | store, _, [] => .ok store
  | store, address, addition :: rest => do
      let store <- store.addInstruction elf memory index address addition.size
        addition.code
      addInstructions index store (address + addition.size.setWidth 64) rest

/-- The creation of a block, and the insertion of all of its instructions. -/
def insert (store : CodeStore) (block : GuestBlock) :
    Except Fault CodeStore :=
  let (index, store) := store.createBlock
  addInstructions elf memory index store block.start block.instructions

/-- Blocks that are inserted one after the other into an empty store. -/
def insertAll (blocks : List GuestBlock) : Except Fault CodeStore :=
  blocks.foldlM (insert elf memory) (empty elf)

variable {elf memory}

/-- Nothing is held at first. -/
theorem empty_holds : Holds elf memory (empty elf) [] where
  code_wellFormed := Or.inl ⟨rfl, rfl, rfl⟩
  offsets_wellFormed := Or.inl ⟨rfl, rfl, rfl⟩
  length_blocks := rfl
  stored := by
    intro index block found
    simp at found
  pages := by
    refine ⟨by simp [empty], ?_⟩
    intro page entries found
    simp only [empty, List.getElem?_replicate, Option.ite_none_right_eq_some,
      Option.some.injEq] at found
    obtain ⟨_, rfl⟩ := found
    refine ⟨List.Pairwise.nil, fun index => ?_⟩
    simp [Reaches]

variable {store after : CodeStore} {blocks : List GuestBlock}

theorem addInstructions_holds
    {start address : BitVec 64}
    {front rest : List Addition}
    (held : Holds elf memory store (blocks ++ [⟨start, front⟩]))
    (growing : Growing memory store blocks.length front)
    (placed : ∀ block ∈ blocks, block.Placed elf)
    (newPlaced : GuestBlock.Placed elf ⟨start, front ++ rest⟩)
    (disjoint : ∀ block ∈ blocks, block.Disjoint ⟨start, front ++ rest⟩)
    (follows : address.toNat = GuestBlock.stop ⟨start, front⟩)
    (added : addInstructions elf memory blocks.length store address rest =
      .ok after) :
    Holds elf memory after (blocks ++ [⟨start, front ++ rest⟩]) := by
  induction rest generalizing store address front with
  | nil =>
      obtain rfl := Except.ok.inj added
      rwa [List.append_nil]
  | cons addition rest inductionHypothesis =>
      simp only [addInstructions, bind, Except.bind] at added
      split at added
      · cases added
      · rename_i next addedFirst
        rw [List.append_cons front] at newPlaced disjoint ⊢
        have firstPlaced := newPlaced.of_initial
        obtain ⟨nextHeld, nextGrowing⟩ := addInstruction_holds held growing
          placed firstPlaced (fun block member =>
            (disjoint block member).of_initial) follows addedFirst
        refine inductionHypothesis nextHeld nextGrowing newPlaced disjoint ?_
          added
        have stopLt := firstPlaced.stop_lt
        have endLt := elf.end_lt
        have newStop : GuestBlock.stop ⟨start, front ++ [addition]⟩ =
            address.toNat + addition.size.toNat := by
          rw [follows]
          simp [GuestBlock.stop, Nat.add_assoc]
        rw [newStop] at stopLt ⊢
        rw [BitVec.toNat_add, BitVec.toNat_setWidth]
        omega

/-- A block that overlaps with none of the blocks in the store is held after
its insertion. -/
theorem insert_holds
    {block : GuestBlock}
    (held : Holds elf memory store blocks)
    (placed : ∀ block ∈ blocks, block.Placed elf)
    (newPlaced : block.Placed elf)
    (disjoint : ∀ other ∈ blocks, other.Disjoint block)
    (inserted : insert elf memory store block = .ok after) :
    Holds elf memory after (blocks ++ [block]) := by
  obtain ⟨indexEq, created, growing⟩ := createBlock_holds held block.start
  simp only [insert, indexEq] at inserted
  exact addInstructions_holds created growing placed newPlaced disjoint rfl
    inserted

theorem foldlM_insert_holds
    {front rest : List GuestBlock}
    (held : Holds elf memory store front)
    (placed : ∀ block ∈ front ++ rest, block.Placed elf)
    (disjoint : (front ++ rest).Pairwise GuestBlock.Disjoint)
    (inserted : rest.foldlM (insert elf memory) store = .ok after) :
    Holds elf memory after (front ++ rest) := by
  induction rest generalizing front store with
  | nil =>
      obtain rfl := Except.ok.inj inserted
      rwa [List.append_nil]
  | cons block rest inductionHypothesis =>
      rw [List.foldlM_cons] at inserted
      simp only [bind, Except.bind] at inserted
      split at inserted
      · cases inserted
      · rename_i next insertedFirst
        rw [List.append_cons front] at placed disjoint ⊢
        refine inductionHypothesis ?_ placed disjoint inserted
        refine insert_holds held
          (fun other member => placed other (by simp [member]))
          (placed block (by simp)) ?_ insertedFirst
        intro other member
        have apart := (List.pairwise_append.mp disjoint).1
        exact (List.pairwise_append.mp apart).2.2 other member block
          (List.mem_singleton_self block)

/-- The store holds all blocks that were inserted. -/
theorem insertAll_holds
    (placed : ∀ block ∈ blocks, block.Placed elf)
    (disjoint : blocks.Pairwise GuestBlock.Disjoint)
    (inserted : insertAll elf memory blocks = .ok after) :
    Holds elf memory after blocks :=
  foldlM_insert_holds empty_holds placed disjoint inserted

end Run

end CodeStore
end Oxtra

import Oxtra.Elf
import Oxtra.StaticList

/-!
# The store of translated blocks

Every page of the image has an array of the blocks that reach into it.  The
store finds the host code of a guest address, and takes up the instructions of
a block one after the other.
-/

namespace Oxtra

/-- What ends a run of the translator. -/
inductive Fault where
  | virtualSegmentationFault
  | findFailed
  | decodeFailed
  | jumpInsideInstruction
  | codeNotAdded
  | offsetNotAdded
  | nonConsecutiveInstruction
  | batchOverflow
  /-- `generate` does not support the operands of an instruction. -/
  | generationFailed
  /-- The array of pages is accessed behind its end; the array does not check
  its bounds, so that nothing is known of what happens then. -/
  | pageOutOfRange (index : Nat)
  deriving DecidableEq, Repr

def maxRiscvInstructionsBits : Nat := 10

/-- Number of host instructions that a batch holds. -/
def maxRiscvInstructions : Nat := (2 ^ maxRiscvInstructionsBits - 1) / 4

/-- Sizes in bytes of a guest instruction and of its host code. -/
structure InstructionOffset where
  x86 : BitVec 6 := 0
  riscv : BitVec maxRiscvInstructionsBits := 0
  deriving DecidableEq, Repr

structure BlockEntry where
  x86Start : BitVec 64 := 0
  x86End : BitVec 64 := 0
  riscvStart : BitVec 64 := 0
  instructionCount : Nat := 0
  /-- Pointer into the offset buffer. -/
  offsets : Nat := 0
  deriving DecidableEq, Repr

/-- Host address of a pointer into the code buffer. -/
def hostAddress (pointer : Nat) : BitVec 64 := BitVec.ofNat 64 (4 * pointer)

/-- Pointer into the code buffer of a host address. -/
def codePointer (address : BitVec 64) : Nat := address.toNat / 4

structure CodeStore where
  /-- The blocks of each page, by the index of the block. -/
  pages : List (List Nat)
  blocks : List BlockEntry := []
  codeBuffer : StaticList (BitVec 32) := { cells := fun _ => 0 }
  instructionOffsetBuffer : StaticList InstructionOffset :=
    { cells := fun _ => {} }

/-- The allocations that the buffers of a store make. -/
structure CodeStore.Memory where
  instructionListSize : Nat
  offsetListSize : Nat
  code : Allocator instructionListSize
  offsets : Allocator offsetListSize

namespace CodeStore

/-- The store of an image without translated code. -/
def empty (elf : Elf) : CodeStore where
  pages := List.replicate elf.pageCount []

def block (store : CodeStore) (index : Nat) : BlockEntry :=
  store.blocks.getD index {}

/-- `get_page_index` -/
def getPageIndex (elf : Elf) (x86Address : BitVec 64) : Nat :=
  ((x86Address - elf.base) >>> pageShift).toNat

/-- The access `_pages[index]`. -/
def page (store : CodeStore) (index : Nat) : Except Fault (List Nat) :=
  match store.pages[index]? with
  | some entries => .ok entries
  | none => .error (.pageOutOfRange index)

/-- The loop over the instructions of a block that `find` runs; `none` when
no instruction starts at the address. -/
def locate
    (offsets : Nat -> InstructionOffset)
    (x86Code : BitVec 64) :
    Nat -> Nat -> BitVec 64 -> BitVec 64 -> Option (BitVec 64)
  | 0, _, _, _ => none
  | count + 1, pointer, guestAddress, hostAddress =>
      if guestAddress = x86Code then
        some hostAddress
      else
        let entry := offsets pointer
        locate offsets x86Code count (pointer + 1)
          (guestAddress + entry.x86.setWidth 64)
          (hostAddress + entry.riscv.setWidth 64)

/-- The binary search of `find` between two indices of a page.  The number
bounds the steps; a page's number of entries is always enough. -/
def search
    (store : CodeStore)
    (entries : List Nat)
    (x86Code : BitVec 64) :
    Nat -> Nat -> Nat -> Except Fault (BitVec 64)
  | 0, _, _ => .ok 0
  | steps + 1, l, r =>
      if l = r then
        .ok 0
      else
        let index := (l + r) / 2
        let entry := store.block (entries.getD index 0)
        if x86Code < entry.x86Start then
          store.search entries x86Code steps l index
        else if x86Code ≥ entry.x86End then
          store.search entries x86Code steps (index + 1) r
        else
          match locate store.instructionOffsetBuffer.cells x86Code
              entry.instructionCount entry.offsets entry.x86Start
              entry.riscvStart with
          | some host => .ok host
          | none => .error .jumpInsideInstruction

/-- `find` -/
def find (elf : Elf) (store : CodeStore) (x86Code : BitVec 64) :
    Except Fault (BitVec 64) := do
  let entries <- store.page (getPageIndex elf x86Code)
  store.search entries x86Code (entries.length + 1) 0 entries.length

/-- `get_next_block`: the index of the first block, in the page of the
address and those behind it, that does not start before the address. -/
def getNextBlock (elf : Elf) (store : CodeStore) (x86Code : BitVec 64) :
    Option Nat :=
  ((store.pages.drop (getPageIndex elf x86Code)).flatten).find?
    fun entry => (store.block entry).x86Start ≥ x86Code

/-- `create_block` -/
def createBlock (store : CodeStore) : Nat × CodeStore :=
  (store.blocks.length, { store with blocks := store.blocks ++ [{}] })

def setBlock (store : CodeStore) (index : Nat) (entry : BlockEntry) :
    CodeStore :=
  { store with blocks := store.blocks.set index entry }

def setPage (store : CodeStore) (index : Nat) (entries : List Nat) :
    CodeStore :=
  { store with pages := store.pages.set index entries }

/-- Position of a new block in a page: before the first block that starts
behind it. -/
def insertSorted
    (store : CodeStore)
    (x86Address : BitVec 64)
    (index : Nat) : List Nat -> List Nat
  | [] => [index]
  | entry :: entries =>
      if (store.block entry).x86Start > x86Address then
        index :: entry :: entries
      else
        entry :: store.insertSorted x86Address index entries

/-- `insert_block` -/
def insertBlock
    (elf : Elf)
    (store : CodeStore)
    (index : Nat)
    (x86Address : BitVec 64) : Except Fault CodeStore :=
  let entry := store.block index
  if entry.instructionCount = 0 then do
    let store := store.setBlock index { entry with x86Start := x86Address }
    let page := getPageIndex elf x86Address
    let entries <- store.page page
    return store.setPage page (store.insertSorted x86Address index entries)
  else if entry.x86End ≠ x86Address then
    .error .nonConsecutiveInstruction
  else
    .ok store

/-- The block that spills into the page of its end becomes the first entry of
that page, unless it is already. -/
def spillBlock
    (elf : Elf)
    (store : CodeStore)
    (index : Nat) : Except Fault CodeStore :=
  let entry := store.block index
  if entry.x86Start >>> pageShift < entry.x86End >>> pageShift then do
    let page := getPageIndex elf entry.x86End
    let entries <- store.page page
    if entries.head? = some index then
      return store
    else
      return store.setPage page (index :: entries)
  else
    .ok store

/-- `add_instruction` -/
def addInstruction
    (elf : Elf)
    (memory : Memory)
    (store : CodeStore)
    (index : Nat)
    (address : BitVec 64)
    (size : BitVec 8)
    (riscvInstructions : List (BitVec 32)) : Except Fault CodeStore := do
  let store <- store.insertBlock elf index address
  let entry := store.block index
  let (riscvStart, codeBuffer) := store.codeBuffer.add memory.code
    (codePointer entry.riscvStart) riscvInstructions
  if riscvStart = 0 then
    throw .codeNotAdded
  let offset : InstructionOffset :=
    { x86 := size.setWidth 6,
      riscv := BitVec.ofNat _ (riscvInstructions.length * 4) }
  let (offsets, instructionOffsetBuffer) :=
    store.instructionOffsetBuffer.add memory.offsets entry.offsets [offset]
  if offsets = 0 then
    throw .offsetNotAdded
  let entry : BlockEntry :=
    { x86Start := entry.x86Start
      x86End := address + size.setWidth 64
      riscvStart := hostAddress riscvStart
      instructionCount := entry.instructionCount + 1
      offsets := offsets }
  let store : CodeStore :=
    { pages := store.pages
      blocks := store.blocks.set index entry
      codeBuffer := codeBuffer
      instructionOffsetBuffer := instructionOffsetBuffer }
  store.spillBlock elf index

end CodeStore
end Oxtra

import Oxtra.CodeStore
import Oxtra.Library.Runs
import Mathlib.Data.List.InsertIdx
import Mathlib.Data.List.TakeWhile

/-!
# The blocks of the debugger

The debugger keeps the translated blocks in a vector that is sorted by their
guest addresses, with a pointer to the current one and its index.  A block that
is inserted elsewhere than at the end or at the current one makes another block
the current one.
-/

namespace Oxtra
namespace Debugger

open PartialStep

/-! ## Blocks -/

/-- A block of the code store with the sizes of its instructions.  Its
addresses do not wrap around. -/
structure Block where
  x86Start : Nat
  riscvStart : Nat
  offsets : List InstructionOffset
  nonempty : offsets ≠ []
  deriving DecidableEq

/-- Number of bytes of some guest instructions. -/
def x86Size (offsets : List InstructionOffset) : Nat :=
  (offsets.map fun offset => offset.x86.toNat).sum

/-- Number of bytes of the host code of some instructions. -/
def riscvSize (offsets : List InstructionOffset) : Nat :=
  (offsets.map fun offset => offset.riscv.toNat).sum

namespace Block

def x86End (block : Block) : Nat := block.x86Start + x86Size block.offsets

/-- The end of the host code that `end_block` computes. -/
def riscvEnd (block : Block) : Nat :=
  block.riscvStart + riscvSize block.offsets

/-- The loop of `resolve_block` over the instructions: the guest address of the
instruction that a host address lies in.  It starts behind an instruction of
some size. -/
def resolveAddress
    (address : Nat) : List InstructionOffset -> Nat -> Nat -> Nat -> Nat
  | [], previous, _, x86Counter => x86Counter - previous
  | offset :: rest, previous, riscvCounter, x86Counter =>
      if riscvCounter = address then
        x86Counter
      else if riscvCounter > address then
        x86Counter - previous
      else
        resolveAddress address rest offset.x86.toNat
          (riscvCounter + offset.riscv.toNat) (x86Counter + offset.x86.toNat)

/-- The guest address for a host address in the block. -/
def resolve (block : Block) (address : Nat) : Nat :=
  resolveAddress address block.offsets 0 block.riscvStart block.x86Start

/-- The host address lies in the block. -/
def Contains (block : Block) (address : Nat) : Prop :=
  block.riscvStart ≤ address ∧ address < block.riscvEnd

instance (block : Block) (address : Nat) :
    Decidable (block.Contains address) :=
  inferInstanceAs (Decidable (_ ∧ _))

end Block

/-! ## The vector -/

/-- Address of an element of a vector: the memory of the vector and an
index. -/
structure Pointer where
  data : Nat
  index : Nat
  deriving DecidableEq, Repr

/-- The vector of blocks in its memory, and the current block. -/
structure BlockTable where
  blocks : List Block := []
  data : Nat := 0
  current : Option Pointer := none
  currentIndex : Nat := 1
  deriving DecidableEq

namespace BlockTable

/-- The block that a pointer refers to, if it refers into the vector. -/
def block (table : BlockTable) (pointer : Pointer) : Option Block :=
  if pointer.data = table.data then table.blocks[pointer.index]? else none

/-- Where `end_block` inserts a block: in front of the first one that starts
above it. -/
def insertIndex (table : BlockTable) (block : Block) : Nat :=
  table.blocks.findIdx fun stored => block.x86Start < stored.x86Start

/-- The blocks with another one. -/
def insertBlock (table : BlockTable) (block : Block) : List Block :=
  let insertIndex := table.insertIndex block
  if insertIndex < table.blocks.length then
    table.blocks.insertIdx insertIndex block
  else
    table.blocks ++ [block]

/-- The index of the current block as `end_block` adapts it. -/
def adaptIndex (table : BlockTable) (block : Block) : Nat :=
  let insertIndex := table.insertIndex block
  if insertIndex < table.blocks.length ∧ insertIndex ≥ table.currentIndex then
    table.currentIndex + 1
  else
    table.currentIndex

/-- What `end_block` does to the blocks.  The insertion may move the vector to
other memory. -/
def endBlock (table : BlockTable) (block : Block) (data : Nat) :
    BlockTable :=
  let blocks := table.insertBlock block
  let currentIndex := table.adaptIndex block
  if currentIndex ≠ blocks.length then
    { blocks, data, current := some ⟨data, currentIndex⟩, currentIndex }
  else
    { blocks, data, current := table.current,
      currentIndex := blocks.length + 1 }

/-- The first step of `resolve_block`: a current block without the address is
no longer the current one.  A dangling pointer is a fault. -/
def leaveCurrent (table : BlockTable) (address : Nat) : Option BlockTable :=
  match table.current with
  | none => some table
  | some pointer => do
      let block ← table.block pointer
      if block.Contains address then
        return table
      else
        return { table with
          current := none
          currentIndex := table.blocks.length + 1 }

/-- The second step of `resolve_block`: the first block with the address becomes
the current one, if there is none. -/
def enterBlock (table : BlockTable) (address : Nat) : BlockTable :=
  match table.current with
  | some _ => table
  | none =>
      match table.blocks.findIdx? fun block => block.Contains address with
      | some index =>
          { table with
            current := some ⟨table.data, index⟩
            currentIndex := index }
      | none => table

/-- `resolve_block`: the guest address for a host address, or zero. -/
def resolveBlock (table : BlockTable) (address : Nat) :
    Option (BlockTable × Nat) := do
  let left ← table.leaveCurrent address
  let entered := left.enterBlock address
  match entered.current with
  | none => return (entered, 0)
  | some pointer =>
      let block ← entered.block pointer
      return (entered, block.resolve address)

/-! ## The current block -/

/-- The pointer and the index denote a block. -/
def Denotes (table : BlockTable) (block : Block) : Prop :=
  table.current = some ⟨table.data, table.currentIndex⟩ ∧
    table.blocks[table.currentIndex]? = some block

/-- Either there is no current block and the index is behind the vector, or the
pointer and the index denote the same block. -/
def Consistent (table : BlockTable) : Prop :=
  (table.current = none ∧ table.currentIndex = table.blocks.length + 1) ∨
    ∃ block, table.Denotes block

/-- The blocks are sorted by the guest addresses they start at. -/
def Sorted (table : BlockTable) : Prop :=
  table.blocks.Pairwise fun first second => first.x86Start ≤ second.x86Start

theorem Denotes.index_lt
    {table : BlockTable}
    {block : Block}
    (denotes : table.Denotes block) :
    table.currentIndex < table.blocks.length :=
  (List.getElem?_eq_some_iff.1 denotes.2).1

/-! ## `end_block` -/

section EndBlock

variable (table : BlockTable) (block : Block) (data : Nat)

theorem insertIndex_le : table.insertIndex block ≤ table.blocks.length :=
  List.findIdx_le_length

/-- The block is inserted, at the end or before. -/
theorem insertBlock_eq :
    table.insertBlock block =
      table.blocks.insertIdx (table.insertIndex block) block := by
  have bound := table.insertIndex_le block
  simp only [insertBlock]
  split
  · rfl
  · have atEnd : table.insertIndex block = table.blocks.length := by omega
    rw [atEnd, List.insertIdx_length_self]

theorem endBlock_blocks :
    (table.endBlock block data).blocks =
      table.blocks.insertIdx (table.insertIndex block) block := by
  rw [← insertBlock_eq]
  simp only [endBlock]
  split <;> rfl

theorem endBlock_length :
    (table.endBlock block data).blocks.length = table.blocks.length + 1 := by
  rw [endBlock_blocks,
    List.length_insertIdx_of_le_length (table.insertIndex_le block)]

theorem endBlock_data : (table.endBlock block data).data = data := by
  simp only [endBlock]
  split <;> rfl

/-- Each block is there once. -/
theorem endBlock_perm :
    (table.endBlock block data).blocks.Perm (block :: table.blocks) := by
  rw [endBlock_blocks]
  exact List.perm_insertIdx _ _ (table.insertIndex_le block)

/-- A block that is inserted in front of the first one above it keeps the
order. -/
theorem pairwise_insertIdx
    {blocks : List Block}
    (sorted : blocks.Pairwise fun first second =>
      first.x86Start ≤ second.x86Start) :
    (blocks.insertIdx (blocks.findIdx fun stored =>
      block.x86Start < stored.x86Start) block).Pairwise fun first second =>
        first.x86Start ≤ second.x86Start := by
  induction blocks with
  | nil => simp
  | cons head rest inductionHypothesis =>
      obtain ⟨first, sortedRest⟩ := List.pairwise_cons.1 sorted
      rw [List.findIdx_cons]
      by_cases above : block.x86Start < head.x86Start
      · rw [decide_eq_true above, cond_true, List.insertIdx_zero,
          List.pairwise_cons]
        refine ⟨fun other member => ?_, sorted⟩
        obtain rfl | inside := List.mem_cons.1 member
        · exact above.le
        · exact above.le.trans (first other inside)
      · rw [decide_eq_false above, cond_false, List.insertIdx_succ_cons,
          List.pairwise_cons]
        refine ⟨fun other member => ?_, inductionHypothesis sortedRest⟩
        rw [List.mem_insertIdx List.findIdx_le_length] at member
        obtain rfl | inside := member
        · exact Nat.le_of_not_lt above
        · exact first other inside

variable {table}

theorem endBlock_sorted (sorted : table.Sorted) :
    (table.endBlock block data).Sorted := by
  rw [Sorted, endBlock_blocks]
  exact pairwise_insertIdx block sorted

theorem insertBlock_length :
    (table.insertBlock block).length = table.blocks.length + 1 := by
  rw [insertBlock_eq,
    List.length_insertIdx_of_le_length (table.insertIndex_le block)]

/-- No current block appears. -/
theorem endBlock_of_none
    (none : table.current = none)
    (index : table.currentIndex = table.blocks.length + 1) :
    (table.endBlock block data).current = .none ∧
      (table.endBlock block data).currentIndex =
        (table.endBlock block data).blocks.length + 1 := by
  have bound := table.insertIndex_le block
  have atEnd : table.adaptIndex block = (table.insertBlock block).length := by
    simp only [adaptIndex]
    rw [insertBlock_length, index, if_neg (by omega)]
  simp only [endBlock]
  rw [if_neg (not_not.2 atEnd)]
  exact ⟨none, rfl⟩

/-- The pointer is taken from the adapted index. -/
theorem endBlock_of_lt (inside : table.currentIndex < table.blocks.length) :
    (table.endBlock block data).current =
        some ⟨data, table.adaptIndex block⟩ ∧
      (table.endBlock block data).currentIndex = table.adaptIndex block := by
  have notEnd : table.adaptIndex block ≠ (table.insertBlock block).length := by
    simp only [adaptIndex]
    rw [insertBlock_length]
    split <;> omega
  simp only [endBlock]
  rw [if_pos notEnd]
  exact ⟨rfl, rfl⟩

/-- The pointer and the index agree behind the insertion. -/
theorem endBlock_consistent (consistent : table.Consistent) :
    (table.endBlock block data).Consistent := by
  obtain ⟨none, index⟩ | ⟨current, denotes⟩ := consistent
  · exact Or.inl (endBlock_of_none block data none index)
  · have inside := denotes.index_lt
    obtain ⟨pointer, index⟩ := endBlock_of_lt block data inside
    have length := table.endBlock_length block data
    have bound : table.adaptIndex block <
        (table.endBlock block data).blocks.length := by
      simp only [adaptIndex]
      split <;> omega
    refine Or.inr ⟨(table.endBlock block data).blocks[table.adaptIndex block],
      ?_, ?_⟩
    · rw [pointer, index, endBlock_data]
    · rw [index]
      exact List.getElem?_eq_getElem bound

end EndBlock

/-- The current block stays the current one; without one, there is none. -/
def KeepsCurrent (before after : BlockTable) : Prop :=
  (∀ block, before.Denotes block -> after.Denotes block) ∧
    (before.current = none -> after.current = none)

/-- There is no current block, or the block is inserted at the end or in front
of the current block. -/
def InsertsWell (table : BlockTable) (block : Block) : Prop :=
  table.current = none ∨
    (∀ stored ∈ table.blocks, stored.x86Start ≤ block.x86Start) ∨
    table.insertIndex block = table.currentIndex

/-- A block goes to the end if none starts above it. -/
theorem insertIndex_eq_length_iff (table : BlockTable) (block : Block) :
    table.insertIndex block = table.blocks.length ↔
      ∀ stored ∈ table.blocks, stored.x86Start ≤ block.x86Start := by
  rw [insertIndex, List.findIdx_eq_length]
  simp

/-- The adapted index denotes the same block behind exactly those
insertions. -/
theorem adaptIndex_iff
    {table : BlockTable}
    {block current : Block}
    (distinct : table.blocks.Nodup)
    (fresh : block ∉ table.blocks)
    (found : table.blocks[table.currentIndex]? = some current) :
    (table.blocks.insertIdx (table.insertIndex block) block)[
        table.adaptIndex block]? = some current ↔
      table.insertIndex block = table.blocks.length ∨
        table.insertIndex block = table.currentIndex := by
  have bound := table.insertIndex_le block
  obtain ⟨inside, same⟩ := List.getElem?_eq_some_iff.1 found
  have unique {index : Nat} (there : table.blocks[index]? = some current) :
      table.currentIndex = index :=
    (List.getElem?_inj inside distinct).1 (found.trans there.symm)
  have notNew : block ≠ current := by
    rintro rfl
    exact fresh (same ▸ List.getElem_mem inside)
  by_cases atEnd : table.insertIndex block = table.blocks.length
  · have index : table.adaptIndex block = table.currentIndex :=
      if_neg (by omega)
    rw [index, List.getElem?_insertIdx_of_lt (by omega)]
    exact iff_of_true found (Or.inl atEnd)
  · rcases Nat.lt_trichotomy (table.insertIndex block) table.currentIndex with
      before | here | behind
    · have index : table.adaptIndex block = table.currentIndex :=
        if_neg (by omega)
      rw [index, List.getElem?_insertIdx_of_gt before]
      refine iff_of_false (fun there => ?_) (by omega)
      have moved := unique there
      omega
    · have index : table.adaptIndex block = table.currentIndex + 1 :=
        if_pos (by omega)
      rw [index, List.getElem?_insertIdx_of_gt (by omega)]
      exact iff_of_true found (Or.inr here)
    · have index : table.adaptIndex block = table.currentIndex + 1 :=
        if_pos (by omega)
      rw [index]
      refine iff_of_false (fun there => ?_) (by omega)
      by_cases next : table.insertIndex block = table.currentIndex + 1
      · rw [← next, List.getElem?_insertIdx_self, if_pos bound] at there
        exact notNew (Option.some.inj there)
      · rw [List.getElem?_insertIdx_of_lt (by omega)] at there
        have moved := unique there
        omega

/-- An insertion keeps the current block if it is one of those that the code
handles. -/
theorem endBlock_keepsCurrent_iff
    {table : BlockTable}
    {block : Block}
    (consistent : table.Consistent)
    (distinct : table.blocks.Nodup)
    (fresh : block ∉ table.blocks)
    (data : Nat) :
    table.KeepsCurrent (table.endBlock block data) ↔
      table.InsertsWell block := by
  rw [InsertsWell, ← insertIndex_eq_length_iff]
  obtain ⟨none, index⟩ | ⟨current, denotes⟩ := consistent
  · refine iff_of_true ⟨fun current denotes => ?_, fun _ => ?_⟩ (Or.inl none)
    · cases denotes.1.symm.trans none
    · exact (endBlock_of_none block data none index).1
  · have some := denotes.1
    obtain ⟨pointer, index⟩ := endBlock_of_lt block data denotes.index_lt
    have kept := adaptIndex_iff distinct fresh denotes.2
    rw [← endBlock_blocks table block data, ← index] at kept
    have pointerKept : (table.endBlock block data).current =
        .some ⟨(table.endBlock block data).data,
          (table.endBlock block data).currentIndex⟩ := by
      rw [pointer, index, endBlock_data]
    constructor
    · intro keeps
      exact Or.inr (kept.1 (keeps.1 current denotes).2)
    · rintro (none | well)
      · rw [some] at none
        cases none
      · refine ⟨fun other otherDenotes => ⟨pointerKept, ?_⟩, fun none => ?_⟩
        · have same := otherDenotes.2.symm.trans denotes.2
          rw [same]
          exact kept.2 well
        · rw [some] at none
          cases none

/-! ## `resolve_block` -/

/-- The pointer is not dangling, and it is kept or given up. -/
theorem leaveCurrent_spec
    {table : BlockTable}
    (consistent : table.Consistent)
    (address : Nat) :
    ∃ left, table.leaveCurrent address = some left ∧ left.Consistent ∧
      left.blocks = table.blocks ∧ left.data = table.data := by
  obtain ⟨none, index⟩ | ⟨current, denotes⟩ := consistent
  · refine ⟨table, ?_, Or.inl ⟨none, index⟩, rfl, rfl⟩
    rw [leaveCurrent, none]
  · have found : table.block ⟨table.data, table.currentIndex⟩ = some current :=
      (if_pos rfl).trans denotes.2
    by_cases inside : current.Contains address
    · refine ⟨table, ?_, Or.inr ⟨current, denotes⟩, rfl, rfl⟩
      rw [leaveCurrent, denotes.1]
      simp [found, inside]
    · refine ⟨{ table with
        current := none
        currentIndex := table.blocks.length + 1 }, ?_, Or.inl ⟨rfl, rfl⟩, rfl,
        rfl⟩
      rw [leaveCurrent, denotes.1]
      simp [found, inside]

theorem enterBlock_spec
    {table : BlockTable}
    (consistent : table.Consistent)
    (address : Nat) :
    (table.enterBlock address).Consistent ∧
      (table.enterBlock address).blocks = table.blocks ∧
      (table.enterBlock address).data = table.data := by
  unfold enterBlock
  split
  · exact ⟨consistent, rfl, rfl⟩
  · split
    · rename_i index found
      obtain ⟨inside, -⟩ := List.findIdx?_eq_some_iff_findIdx_eq.1 found
      exact ⟨Or.inr ⟨table.blocks[index], rfl,
        List.getElem?_eq_getElem inside⟩, rfl, rfl⟩
    · exact ⟨consistent, rfl, rfl⟩

/-- The call never follows a dangling pointer, and it keeps the blocks. -/
theorem resolveBlock_spec
    {table : BlockTable}
    (consistent : table.Consistent)
    (address : Nat) :
    ∃ resolved, table.resolveBlock address = some resolved ∧
      resolved.1.Consistent ∧ resolved.1.blocks = table.blocks ∧
      resolved.1.data = table.data := by
  obtain ⟨left, leaves, leftConsistent, leftBlocks, leftData⟩ :=
    leaveCurrent_spec consistent address
  obtain ⟨entered, blocks, data⟩ := enterBlock_spec leftConsistent address
  rw [leftBlocks] at blocks
  rw [leftData] at data
  generalize enters : left.enterBlock address = after at entered blocks data
  obtain ⟨none, -⟩ | ⟨current, denotes⟩ := id entered
  · refine ⟨(after, 0), ?_, entered, blocks, data⟩
    simp [resolveBlock, leaves, enters, none]
  · have found : after.block ⟨after.data, after.currentIndex⟩ = some current :=
      (if_pos rfl).trans denotes.2
    refine ⟨(after, current.resolve address), ?_, entered, blocks, data⟩
    simp [resolveBlock, leaves, enters, denotes.1, found]

end BlockTable

/-! ## Runs -/

/-- A call that changes the blocks. -/
inductive BlockEvent where
  | endBlock (block : Block) (data : Nat)
  | resolveBlock (address : Nat)

/-- The table after a call. -/
def BlockTable.step (table : BlockTable) : BlockEvent -> Option BlockTable
  | .endBlock block data => some (table.endBlock block data)
  | .resolveBlock address => (table.resolveBlock address).map Prod.fst

/-- The blocks that are inserted, in their order. -/
def inserted : List BlockEvent -> List Block
  | [] => []
  | .endBlock block _ :: rest => block :: inserted rest
  | .resolveBlock _ :: rest => inserted rest

/-- An insertion keeps the current block. -/
def KeepsCurrentAt
    (before : BlockTable)
    (event : BlockEvent)
    (after : BlockTable) : Prop :=
  match event with
  | .endBlock _ _ => before.KeepsCurrent after
  | .resolveBlock _ => True

/-- An insertion is at the end or in front of the current block, if there is
one. -/
def InsertsWellAt
    (before : BlockTable)
    (event : BlockEvent)
    (_ : BlockTable) : Prop :=
  match event with
  | .endBlock block _ => before.InsertsWell block
  | .resolveBlock _ => True

/-- What is true between calls: some blocks are in the vector, the others are
inserted by the calls to come. -/
structure Holds
    (blocks : List Block)
    (table : BlockTable)
    (events : List BlockEvent) : Prop where
  consistent : table.Consistent
  sorted : table.Sorted
  perm : (inserted events ++ table.blocks).Perm blocks

theorem Holds.step
    {blocks : List Block}
    {table : BlockTable}
    {event : BlockEvent}
    {rest : List BlockEvent}
    (holds : Holds blocks table (event :: rest)) :
    ∃ next, table.step event = some next ∧ Holds blocks next rest := by
  cases event with
  | endBlock block data =>
      refine ⟨_, rfl, ?_, ?_, ?_⟩
      · exact BlockTable.endBlock_consistent block data holds.consistent
      · exact BlockTable.endBlock_sorted block data holds.sorted
      · calc
          (inserted rest ++ (table.endBlock block data).blocks).Perm
              (inserted rest ++ block :: table.blocks) :=
            (table.endBlock_perm block data).append_left _
          List.Perm _ (block :: (inserted rest ++ table.blocks)) :=
            List.perm_middle
          List.Perm _ blocks := holds.perm
  | resolveBlock address =>
      obtain ⟨resolved, resolves, consistent, same, -⟩ :=
        BlockTable.resolveBlock_spec holds.consistent address
      refine ⟨resolved.1, ?_, consistent, ?_, ?_⟩
      · rw [BlockTable.step, resolves, Option.map_some]
      · rw [BlockTable.Sorted, same]
        exact holds.sorted
      · rw [same]
        exact holds.perm

/-- Every run keeps the blocks sorted and each of them once.  It keeps the
current block exactly if every insertion is at the end or in front of it. -/
theorem run_keepsCurrent_iff
    (events : List BlockEvent)
    (distinct : (inserted events).Nodup) :
    (∃ final, run BlockTable.step {} events = some final ∧ final.Sorted ∧
      final.blocks.Perm (inserted events)) ∧
      (EveryStep BlockTable.step KeepsCurrentAt {} events ↔
        EveryStep BlockTable.step InsertsWellAt {} events) := by
  have start : Holds (inserted events) {} events :=
    ⟨Or.inl ⟨rfl, rfl⟩, List.Pairwise.nil, by rw [List.append_nil]⟩
  constructor
  · obtain ⟨final, runs, holds⟩ := @run_of_invariant _ _ BlockTable.step
      (Holds (inserted events)) (fun _ _ _ holds => holds.step) {} events start
    exact ⟨final, runs, holds.sorted, holds.perm⟩
  · refine everyStep_congr (fun table event rest next holds steps => ?_) start
    obtain ⟨other, otherSteps, kept⟩ := holds.step
    obtain rfl : next = other :=
      Option.some.inj (steps.symm.trans otherSteps)
    refine ⟨kept, ?_⟩
    cases event with
    | resolveBlock address => exact Iff.rfl
    | endBlock block data =>
        obtain rfl := Option.some.inj steps
        have nodup := holds.perm.nodup_iff.2 distinct
        rw [inserted, List.cons_append, List.nodup_cons, List.mem_append,
          not_or] at nodup
        exact BlockTable.endBlock_keepsCurrent_iff holds.consistent
          (List.nodup_append.1 nodup.2).2.1 nodup.1.2 data

/-- A block of one instruction. -/
def sampleBlock (x86Start riscvStart : Nat) : Block where
  x86Start := x86Start
  riscvStart := riscvStart
  offsets := [{ x86 := 1, riscv := 8 }]
  nonempty := List.cons_ne_nil _ _

/-- The first block is the current one when a block is inserted in front of
it. -/
theorem run_keepsCurrent_iff_inFront :
    EveryStep BlockTable.step KeepsCurrentAt {}
      [.endBlock (sampleBlock 0x30 0x1000) 0, .resolveBlock 0x1000,
        .endBlock (sampleBlock 0x20 0x2000) 1] := by
  refine (run_keepsCurrent_iff _ (by decide)).2.2 ?_
  exact ⟨_, rfl, Or.inl rfl, _, rfl, trivial, _, rfl,
    Or.inr (Or.inr (by decide)), trivial⟩

/-- The first of two blocks is the current one, and becomes another one when a
block is inserted between them. -/
theorem endBlock_changes_current :
    ∃ before after, run BlockTable.step {}
        [.endBlock (sampleBlock 0x10 0x1000) 0,
          .endBlock (sampleBlock 0x30 0x2000) 0,
          .resolveBlock 0x1000] = some before ∧
      before.step (.endBlock (sampleBlock 0x20 0x3000) 0) = some after ∧
      before.Denotes (sampleBlock 0x10 0x1000) ∧
      ¬ after.Denotes (sampleBlock 0x10 0x1000) := by
  refine ⟨_, _, rfl, rfl, ⟨by decide, by decide⟩, fun denotes => ?_⟩
  exact absurd denotes.2 (by decide)

end Debugger
end Oxtra

import Oxtra.Debugger.Blocks
import Oxtra.Library.Snapping
import Mathlib.Data.List.DropRight
import Mathlib.Data.List.Pairwise

/-!
# Break-points

A break-point in a translated block is moved to the start of its instruction.
The blocks decide about the entry that an address has in the table of
break-points.
-/

namespace Oxtra
namespace Debugger

/-! ## Instructions of blocks -/

namespace Block

/-- Guest address of an instruction, or the end of the block. -/
def instructionStart (block : Block) (index : Nat) : Nat :=
  block.x86Start + x86Size (block.offsets.take index)

/-- Host address at which an instruction breaks, behind the jump to the
debug-handler. -/
def breakAddress (block : Block) (index : Nat) : Nat :=
  block.riscvStart + 4 + riscvSize (block.offsets.take index)

/-- A guest address lies in an instruction. -/
def InInstruction (block : Block) (index address : Nat) : Prop :=
  index < block.offsets.length ∧ block.instructionStart index ≤ address ∧
    address < block.instructionStart (index + 1)

/-- A guest address lies in the block. -/
def Covers (block : Block) (address : Nat) : Prop :=
  block.x86Start ≤ address ∧ address < block.x86End

instance (block : Block) (address : Nat) : Decidable (block.Covers address) :=
  inferInstanceAs (Decidable (_ ∧ _))

end Block

section Sizes

variable (offset : InstructionOffset) (rest : List InstructionOffset)

@[simp] theorem x86Size_nil : x86Size [] = 0 := rfl

@[simp] theorem riscvSize_nil : riscvSize [] = 0 := rfl

@[simp] theorem x86Size_cons :
    x86Size (offset :: rest) = offset.x86.toNat + x86Size rest := by
  simp [x86Size]

@[simp] theorem riscvSize_cons :
    riscvSize (offset :: rest) = offset.riscv.toNat + riscvSize rest := by
  simp [riscvSize]

end Sizes

/-- More instructions are not smaller. -/
theorem x86Size_take_mono
    (offsets : List InstructionOffset)
    {first second : Nat}
    (before : first ≤ second) :
    x86Size (offsets.take first) ≤ x86Size (offsets.take second) := by
  obtain ⟨between, rfl⟩ := Nat.exists_eq_add_of_le before
  rw [List.take_add, x86Size, x86Size, List.map_append, List.sum_append]
  exact Nat.le_add_right _ _

namespace Block

theorem instructionStart_mono
    (block : Block)
    {first second : Nat}
    (before : first ≤ second) :
    block.instructionStart first ≤ block.instructionStart second :=
  Nat.add_le_add_left (x86Size_take_mono block.offsets before) _

theorem InInstruction.covers
    {block : Block}
    {index address : Nat}
    (inside : block.InInstruction index address) :
    block.Covers address := by
  obtain ⟨bound, lower, upper⟩ := inside
  have ends : block.instructionStart block.offsets.length = block.x86End := by
    rw [instructionStart, List.take_length, x86End]
  have start : block.instructionStart 0 = block.x86Start := rfl
  have first := block.instructionStart_mono (Nat.zero_le index)
  have last := @instructionStart_mono block (index + 1) _ bound
  exact ⟨by omega, by omega⟩

/-- An address lies in one instruction only. -/
theorem InInstruction.unique
    {block : Block}
    {first second address : Nat}
    (inFirst : block.InInstruction first address)
    (inSecond : block.InInstruction second address) :
    first = second := by
  obtain ⟨-, firstLower, firstUpper⟩ := inFirst
  obtain ⟨-, secondLower, secondUpper⟩ := inSecond
  rcases Nat.lt_trichotomy first second with less | same | greater
  · have between := @instructionStart_mono block (first + 1) second less
    omega
  · exact same
  · have between := @instructionStart_mono block (second + 1) first greater
    omega

end Block

/-! ## Entries -/

/-- An entry of the two arrays: the guest address, and the host address at
which to break, which is zero before the translation. -/
structure BreakPoint where
  x86 : Nat
  riscv : Nat
  deriving DecidableEq, Repr

/-- The loop over the instructions of a block that looks for the one of a
break-point.  The last instruction is taken at any rate. -/
def locate
    (addr : Nat) : List InstructionOffset -> Nat -> Nat -> Option BreakPoint
  | [], _, _ => none
  | offset :: rest, x86Counter, riscvCounter =>
      if (addr ≥ x86Counter ∧ addr < x86Counter + offset.x86.toNat) ∨
          rest = [] then
        some ⟨x86Counter, riscvCounter⟩
      else
        locate addr rest (x86Counter + offset.x86.toNat)
          (riscvCounter + offset.riscv.toNat)

/-- The break-point for an address in a block. -/
def Block.breakPoint (block : Block) (addr : Nat) : Option BreakPoint :=
  locate addr block.offsets block.x86Start (block.riscvStart + 4)

/-- The loop of `insert_break_point` over the blocks: the entry for an
address. -/
def findEntry (addr : Nat) : List Block -> BreakPoint
  | [] => ⟨addr, 0⟩
  | block :: rest =>
      if addr < block.x86Start then
        ⟨addr, 0⟩
      else if block.Covers addr then
        match block.breakPoint addr with
        | some entry => entry
        | none => findEntry addr rest
      else
        findEntry addr rest

/-- `insert_break_point` into a table: sorted in, unless a neighbour has the
same address, or put at the end.  The result says if there was none. -/
def insertBreakPoint
    (blocks : List Block)
    (table : List BreakPoint)
    (addr : Nat)
    (staticInsert : Bool) : List BreakPoint × Bool :=
  let entry := findEntry addr blocks
  if staticInsert then
    let kept := table.rdropWhile fun stored => addr ≤ stored.x86
    let moved := table.rtakeWhile fun stored => addr ≤ stored.x86
    if (moved.head?.map BreakPoint.x86) = some entry.x86 ∨
        (kept.getLast?.map BreakPoint.x86) = some entry.x86 then
      (table, false)
    else
      (kept ++ entry :: moved, true)
  else
    (table ++ [entry], true)

/-- The entry of a break-point behind the translation of a block. -/
def translateEntry (block : Block) (entry : BreakPoint) : BreakPoint :=
  if block.Covers entry.x86 then
    (block.breakPoint entry.x86).getD entry
  else
    entry

/-- The loop of `update_break_points` from some entry on, behind another one.
An entry that has become the one of a neighbour is removed. -/
def updateFrom (block : Block) :
    Option BreakPoint -> List BreakPoint -> List BreakPoint
  | _, [] => []
  | previous, entry :: rest =>
      if entry.riscv ≠ 0 then
        entry :: updateFrom block (some entry) rest
      else
        let entry := translateEntry block entry
        if entry.riscv = 0 then
          entry :: updateFrom block (some entry) rest
        else if previous.map BreakPoint.x86 = some entry.x86 ∨
            rest.head?.map BreakPoint.x86 = some entry.x86 then
          updateFrom block previous rest
        else
          entry :: updateFrom block (some entry) rest

/-- `update_break_points` -/
def updateBreakPoints (block : Block) (table : List BreakPoint) :
    List BreakPoint :=
  updateFrom block none table

/-! ## Where an address breaks -/

/-- The loop finds the instruction that an address lies in. -/
theorem locate_spec
    {addr : Nat}
    {offsets : List InstructionOffset}
    {x86Counter : Nat}
    (riscvCounter : Nat)
    (lower : x86Counter ≤ addr)
    (upper : addr < x86Counter + x86Size offsets) :
    ∃ index < offsets.length,
      locate addr offsets x86Counter riscvCounter =
          some ⟨x86Counter + x86Size (offsets.take index),
            riscvCounter + riscvSize (offsets.take index)⟩ ∧
        x86Counter + x86Size (offsets.take index) ≤ addr ∧
        addr < x86Counter + x86Size (offsets.take (index + 1)) := by
  induction offsets generalizing x86Counter riscvCounter with
  | nil =>
      rw [x86Size_nil] at upper
      omega
  | cons offset rest inductionHypothesis =>
      rw [x86Size_cons] at upper
      by_cases here : addr < x86Counter + offset.x86.toNat
      · refine ⟨0, Nat.zero_lt_succ _, ?_, lower, ?_⟩
        · rw [locate, if_pos (Or.inl ⟨lower, here⟩)]
          rfl
        · simpa using here
      · have notLast : rest ≠ [] := by
          rintro rfl
          rw [x86Size_nil] at upper
          omega
        obtain ⟨index, bound, found, start, ends⟩ := inductionHypothesis
          (riscvCounter + offset.riscv.toNat) (Nat.le_of_not_lt here)
          (by omega)
        refine ⟨index + 1, Nat.succ_lt_succ bound, ?_, ?_, ?_⟩
        · rw [locate, if_neg (by simp [here, notLast]), found]
          simp [Nat.add_assoc]
        · simpa [Nat.add_assoc] using start
        · simpa [Nat.add_assoc] using ends

namespace Block

/-- The break-point of an instruction. -/
def instructionEntry (block : Block) (index : Nat) : BreakPoint :=
  ⟨block.instructionStart index, block.breakAddress index⟩

theorem breakPoint_spec
    {block : Block}
    {address : Nat}
    (covers : block.Covers address) :
    ∃ index, block.InInstruction index address ∧
      block.breakPoint address = some (block.instructionEntry index) := by
  obtain ⟨index, bound, found, lower, upper⟩ :=
    locate_spec (block.riscvStart + 4) covers.1 covers.2
  exact ⟨index, ⟨bound, lower, upper⟩, found⟩

theorem InInstruction.breakPoint
    {block : Block}
    {index address : Nat}
    (inside : block.InInstruction index address) :
    block.breakPoint address = some (block.instructionEntry index) := by
  obtain ⟨other, insideOther, found⟩ := breakPoint_spec inside.covers
  rw [found, inside.unique insideOther]

/-- An instruction with an address has the one that it starts at. -/
theorem InInstruction.start
    {block : Block}
    {index address : Nat}
    (inside : block.InInstruction index address) :
    block.InInstruction index (block.instructionStart index) :=
  ⟨inside.1, le_rfl, inside.2.1.trans_lt inside.2.2⟩

/-- The host address of an instruction is behind the jump to the
debug-handler. -/
theorem instructionEntry_riscv_ne_zero (block : Block) (index : Nat) :
    (block.instructionEntry index).riscv ≠ 0 := by
  have behind : (block.instructionEntry index).riscv =
      block.riscvStart + 4 + riscvSize (block.offsets.take index) := rfl
  omega

end Block

/-- Where the instruction of an address starts, or the address itself if it is
not translated. -/
def StartOf (blocks : List Block) (address start : Nat) : Prop :=
  (∃ block ∈ blocks, ∃ index, block.InInstruction index address ∧
    start = block.instructionStart index) ∨
    ((∀ block ∈ blocks, ¬ block.Covers address) ∧ start = address)

/-- An entry has the host address of an instruction that starts at its guest
address, or none if that is not translated. -/
def BreaksAt (blocks : List Block) (entry : BreakPoint) : Prop :=
  (∃ block ∈ blocks, ∃ index, block.InInstruction index entry.x86 ∧
    entry = block.instructionEntry index) ∨
    ((∀ block ∈ blocks, ¬ block.Covers entry.x86) ∧ entry.riscv = 0)

/-- All instructions with an address start at the same one. -/
def Unambiguous (blocks : List Block) (address : Nat) : Prop :=
  ∀ first second, StartOf blocks address first ->
    StartOf blocks address second -> first = second

section Starts

variable {blocks : List Block} {address : Nat}

/-- Unless all blocks lack the address, the loop takes an instruction of the
first one that has it. -/
theorem findEntry_of_covered
    (sorted : blocks.Pairwise fun first second =>
      first.x86Start ≤ second.x86Start)
    (covered : ∃ block ∈ blocks, block.Covers address) :
    ∃ block ∈ blocks, ∃ index, block.InInstruction index address ∧
      findEntry address blocks = block.instructionEntry index := by
  obtain ⟨block, member, covers⟩ := covered
  induction blocks with
  | nil => cases member
  | cons head rest inductionHypothesis =>
      obtain ⟨first, sortedRest⟩ := List.pairwise_cons.1 sorted
      have reached : ¬ address < head.x86Start := by
        have notBehind : head.x86Start ≤ block.x86Start := by
          obtain rfl | inside := List.mem_cons.1 member
          · exact le_rfl
          · exact first block inside
        have start := covers.1
        omega
      rw [findEntry, if_neg reached]
      by_cases here : head.Covers address
      · obtain ⟨index, inside, found⟩ := Block.breakPoint_spec here
        refine ⟨head, List.mem_cons_self, index, inside, ?_⟩
        rw [if_pos here, found]
      · have inRest : block ∈ rest := by
          obtain rfl | inside := List.mem_cons.1 member
          · exact absurd covers here
          · exact inside
        obtain ⟨other, otherMember, found⟩ :=
          inductionHypothesis sortedRest inRest
        rw [if_neg here]
        exact ⟨other, List.mem_cons_of_mem _ otherMember, found⟩

theorem findEntry_of_uncovered
    (uncovered : ∀ block ∈ blocks, ¬ block.Covers address) :
    findEntry address blocks = ⟨address, 0⟩ := by
  induction blocks with
  | nil => rfl
  | cons head rest inductionHypothesis =>
      have outside := uncovered head List.mem_cons_self
      rw [findEntry, if_neg outside, inductionHypothesis fun block member =>
        uncovered block (List.mem_cons_of_mem _ member), ite_self]

/-- The entry for an address is at the start of its instruction. -/
theorem findEntry_spec
    (sorted : blocks.Pairwise fun first second =>
      first.x86Start ≤ second.x86Start)
    (address : Nat) :
    StartOf blocks address (findEntry address blocks).x86 ∧
      BreaksAt blocks (findEntry address blocks) := by
  by_cases covered : ∃ block ∈ blocks, block.Covers address
  · obtain ⟨block, member, index, inside, found⟩ :=
      findEntry_of_covered sorted covered
    rw [found]
    exact ⟨Or.inl ⟨block, member, index, inside, rfl⟩,
      Or.inl ⟨block, member, index, inside.start, rfl⟩⟩
  · have uncovered : ∀ block ∈ blocks, ¬ block.Covers address :=
      fun block member covers => covered ⟨block, member, covers⟩
    rw [findEntry_of_uncovered uncovered]
    exact ⟨Or.inr ⟨uncovered, rfl⟩, Or.inr ⟨uncovered, rfl⟩⟩

/-- Every address has a start. -/
theorem exists_startOf
    (blocks : List Block)
    (address : Nat) :
    ∃ start, StartOf blocks address start := by
  by_cases covered : ∃ block ∈ blocks, block.Covers address
  · obtain ⟨block, member, covers⟩ := covered
    obtain ⟨index, inside, -⟩ := Block.breakPoint_spec covers
    exact ⟨_, Or.inl ⟨block, member, index, inside, rfl⟩⟩
  · exact ⟨address, Or.inr
      ⟨fun block member covers => covered ⟨block, member, covers⟩, rfl⟩⟩

/-- An address in one block at most is unambiguous. -/
theorem unambiguous_of_apart
    (apart : ∀ first ∈ blocks, ∀ second ∈ blocks,
      first.Covers address -> second.Covers address -> first = second) :
    Unambiguous blocks address := by
  rintro start other
    (⟨first, memFirst, index, inside, rfl⟩ | ⟨uncovered, rfl⟩)
    (⟨second, memSecond, otherIndex, otherInside, rfl⟩ | ⟨outside, rfl⟩)
  · obtain rfl := apart first memFirst second memSecond inside.covers
      otherInside.covers
    rw [inside.unique otherInside]
  · exact absurd inside.covers (outside first memFirst)
  · exact absurd otherInside.covers (uncovered second memSecond)
  · rfl

theorem snapping_startOf
    {addresses : Set Nat}
    (unambiguous : ∀ address ∈ addresses, Unambiguous blocks address) :
    Snapping (StartOf blocks) addresses where
  le := by
    rintro address start (⟨block, -, index, inside, rfl⟩ | ⟨-, rfl⟩)
    · exact inside.2.1
    · exact le_rfl
  constant := by
    rintro address other start
      (⟨block, member, index, inside, rfl⟩ | ⟨uncovered, rfl⟩) lower upper
    · exact Or.inl ⟨block, member, index,
        ⟨inside.1, lower, upper.trans_lt inside.2.2⟩, rfl⟩
    · obtain rfl := le_antisymm upper lower
      exact Or.inr ⟨uncovered, rfl⟩
  unique := fun member => unambiguous _ member _ _

end Starts

/-! ## Insertion -/

/-- The table has the break-points at some addresses: one entry, in ascending
order, for each instruction that one of them lies in. -/
structure Shows
    (blocks : List Block)
    (table : List BreakPoint)
    (addresses : Set Nat) : Prop where
  keyTable : KeyTable (StartOf blocks) (table.map BreakPoint.x86) addresses
  breaks : ∀ entry ∈ table, BreaksAt blocks entry

theorem Shows.ascending
    {blocks : List Block}
    {table : List BreakPoint}
    {addresses : Set Nat}
    (shows : Shows blocks table addresses) :
    table.Pairwise fun first second => first.x86 < second.x86 :=
  List.pairwise_map.1 shows.keyTable.ascending

/-- Behind the loop that moves the entries up, the others are below the
address. -/
theorem lt_of_mem_rdropWhile
    {table : List BreakPoint}
    {addr : Nat}
    (ascending : table.Pairwise fun first second => first.x86 < second.x86)
    {entry : BreakPoint}
    (member : entry ∈ table.rdropWhile fun stored => addr ≤ stored.x86) :
    entry.x86 < addr := by
  have nonempty := List.ne_nil_of_mem member
  have last := List.rdropWhile_last_not _ table nonempty
  rw [decide_eq_true_eq, Nat.not_le] at last
  have prefixAscending := ascending.sublist
    (List.rdropWhile_prefix (fun stored => addr ≤ stored.x86) table).sublist
  rw [← List.dropLast_append_getLast nonempty] at member
  obtain front | isLast := List.mem_append.1 member
  · exact (prefixAscending.rel_dropLast_getLast front).trans last
  · rwa [List.mem_singleton.1 isLast]

/-- A break-point that is set is in the table. -/
theorem insertBreakPoint_shows
    {blocks : List Block}
    {table : List BreakPoint}
    {addresses : Set Nat}
    {addr : Nat}
    (sorted : blocks.Pairwise fun first second =>
      first.x86Start ≤ second.x86Start)
    (snapping : Snapping (StartOf blocks) (insert addr addresses))
    (shows : Shows blocks table addresses) :
    Shows blocks (insertBreakPoint blocks table addr true).1
      (insert addr addresses) := by
  obtain ⟨start, breaks⟩ := findEntry_spec sorted addr
  let kept := table.rdropWhile fun stored => addr ≤ stored.x86
  let moved := table.rtakeWhile fun stored => addr ≤ stored.x86
  have whole : kept ++ moved = table := List.rdropWhile_append_rtakeWhile
  have keyTable := shows.keyTable
  simp only [insertBreakPoint, if_true]
  split
  · rename_i neighbour
    refine ⟨keyTable.insert_of_mem snapping start ?_, shows.breaks⟩
    rw [← whole, List.map_append, List.mem_append]
    obtain next | previous := neighbour
    · rw [← List.head?_map] at next
      exact Or.inr (List.mem_of_head? next)
    · rw [← List.getLast?_map] at previous
      exact Or.inl (List.mem_of_getLast? previous)
  · rename_i noNeighbour
    rw [not_or, ← List.head?_map, ← List.getLast?_map] at noNeighbour
    constructor
    · rw [List.map_append, List.map_cons]
      rw [← whole, List.map_append] at keyTable
      apply keyTable.insert_of_neighbours snapping start
      · intro key member
        obtain ⟨entry, inside, rfl⟩ := List.mem_map.1 member
        exact lt_of_mem_rdropWhile shows.ascending inside
      · intro key member
        obtain ⟨entry, inside, rfl⟩ := List.mem_map.1 member
        simpa using List.mem_rtakeWhile_imp inside
      · rintro key last rfl
        exact noNeighbour.2 last
      · rintro key first rfl
        exact noNeighbour.1 first
    · intro entry member
      obtain inKept | rfl | inMoved : entry ∈ kept ∨
          entry = findEntry addr blocks ∨ entry ∈ moved := by
        simpa using member
      · exact shows.breaks entry (whole ▸ List.mem_append_left _ inKept)
      · exact breaks
      · exact shows.breaks entry (whole ▸ List.mem_append_right _ inMoved)

end Debugger
end Oxtra

import Mathlib.Data.List.Pairwise
import Oxtra.CodeStore.Insertion

/-!
# Lookup of guest addresses

The binary search over a sorted page ends at the block that contains the
address, and the walk over the offsets of the block at the instruction that
starts there.
-/

namespace Oxtra

open Addition

namespace GuestBlock

/-- An instruction of the block starts at the address, behind the
instructions `front`. -/
def StartsAt
    (block : GuestBlock)
    (address : BitVec 64)
    (front : List Addition)
    (addition : Addition) : Prop :=
  (∃ back, block.instructions = front ++ addition :: back) ∧
    address.toNat = block.start.toNat + guestLength front

/-- The address lies in an instruction of the block, and is not its start. -/
def StrictlyInside (block : GuestBlock) (address : BitVec 64) : Prop :=
  ∃ front addition back, block.instructions = front ++ addition :: back ∧
    block.start.toNat + guestLength front < address.toNat ∧
      address.toNat <
        block.start.toNat + guestLength front + addition.size.toNat

variable {block : GuestBlock} {address : BitVec 64}

theorem StartsAt.contains
    {elf : Elf}
    {front : List Addition}
    {addition : Addition}
    (placed : block.Placed elf)
    (starts : block.StartsAt address front addition) :
    block.Contains address := by
  obtain ⟨⟨back, instructions⟩, addressEq⟩ := starts
  have encodable := placed.encodable addition (by simp [instructions])
  have positive := encodable.size_pos
  refine ⟨by omega, ?_⟩
  rw [stop, instructions, guestLength_append, guestLength_cons]
  omega

/-- Every address behind the start of consecutive instructions, and in front
of their end, lies in one of them. -/
theorem exists_instruction
    {offset : Nat}
    {instructions : List Addition}
    (inside : offset < guestLength instructions) :
    ∃ front addition back, instructions = front ++ addition :: back ∧
      guestLength front ≤ offset ∧
        offset < guestLength front + addition.size.toNat := by
  induction instructions generalizing offset with
  | nil => simp at inside
  | cons first rest inductionHypothesis =>
      rw [guestLength_cons] at inside
      by_cases here : offset < first.size.toNat
      · exact ⟨[], first, rest, rfl, by simp, by simpa using here⟩
      · obtain ⟨front, addition, back, restEq, low, high⟩ :=
          @inductionHypothesis (offset - first.size.toNat) (by omega)
        refine ⟨first :: front, addition, back, by rw [restEq]; rfl, ?_, ?_⟩
        · rw [guestLength_cons]
          omega
        · rw [guestLength_cons]
          omega

/-- An address of a block is the start of an instruction or lies inside of
one. -/
theorem Contains.starts_or_inside
    (inside : block.Contains address) :
    (∃ front addition, block.StartsAt address front addition) ∨
      block.StrictlyInside address := by
  obtain ⟨low, high⟩ := inside
  rw [stop] at high
  obtain ⟨front, addition, back, instructions, frontLe, below⟩ :=
    @exists_instruction (address.toNat - block.start.toNat)
      block.instructions (by omega)
  by_cases starts : address.toNat = block.start.toNat + guestLength front
  · exact Or.inl ⟨front, addition, ⟨back, instructions⟩, starts⟩
  · exact Or.inr ⟨front, addition, back, instructions, by omega, by omega⟩

end GuestBlock

namespace CodeStore

/-! ## The walk over the instructions of a block -/

/-- The instruction that starts at the address is found, with its host
address. -/
theorem locate_of_start
    {size : Nat}
    {allocator : Allocator size}
    {offsets : StaticList InstructionOffset}
    {front back : List Addition}
    {addition : Addition}
    {pointer : Nat}
    {guestAddress hostAddress x86Code : BitVec 64}
    (stored : offsets.Stores allocator pointer
      ((front ++ addition :: back).map Addition.offset))
    (encodable : ∀ other ∈ front, other.Encodable)
    (codeEq : x86Code.toNat = guestAddress.toNat + guestLength front) :
    locate offsets.cells x86Code (front ++ addition :: back).length pointer
        guestAddress hostAddress =
      some (hostAddress + BitVec.ofNat 64 (4 * (hostCode front).length)) := by
  induction front generalizing pointer guestAddress hostAddress with
  | nil =>
      obtain rfl : guestAddress = x86Code := by
        apply BitVec.eq_of_toNat_eq
        rw [codeEq]
        rfl
      simp [locate]
  | cons first front inductionHypothesis =>
      have firstEncodable := encodable first (List.mem_cons_self ..)
      have positive := firstEncodable.size_pos
      have codeLt := x86Code.isLt
      rw [guestLength_cons] at codeEq
      have further : guestAddress ≠ x86Code := by
        rintro rfl
        omega
      have content : offsets.cells pointer = first.offset :=
        (stored 0 first.offset rfl).2
      have guestEq : (guestAddress + first.offset.x86.setWidth 64).toNat =
          guestAddress.toNat + first.size.toNat := by
        rw [BitVec.toNat_add, BitVec.toNat_setWidth, firstEncodable.x86_toNat]
        omega
      have hostEq : first.offset.riscv.setWidth 64 =
          BitVec.ofNat 64 (4 * first.code.length) := by
        apply BitVec.eq_of_toNat_eq
        rw [BitVec.toNat_setWidth, firstEncodable.riscv_toNat]
        rfl
      have rest : offsets.Stores allocator (pointer + 1)
          ((front ++ addition :: back).map Addition.offset) :=
        @StaticList.Stores.append_right _ _ _ _ _ [first.offset] _ stored
      rw [List.cons_append, List.length_cons, locate, if_neg further]
      simp only [content]
      rw [inductionHypothesis rest
        (fun other member => encodable other (List.mem_cons_of_mem _ member))
        (by rw [guestEq]; omega)]
      rw [hostEq, hostCode_cons, List.length_append, Nat.mul_add,
        BitVec.ofNat_add, BitVec.add_assoc]

/-! ## The binary search in a page -/

section Search

variable {store : CodeStore} {entries : List Nat} {x86Code : BitVec 64}

/-- The address lies between start and end of the block of this index. -/
def Covers (store : CodeStore) (index : Nat) (x86Code : BitVec 64) : Prop :=
  (store.block index).x86Start ≤ x86Code ∧
    x86Code < (store.block index).x86End

/-- What `find` returns for an address of a block. -/
def located
    (store : CodeStore)
    (entry : BlockEntry)
    (x86Code : BitVec 64) : Except Fault (BitVec 64) :=
  match locate store.instructionOffsetBuffer.cells x86Code
      entry.instructionCount entry.offsets entry.x86Start
      entry.riscvStart with
  | some host => .ok host
  | none => .error .jumpInsideInstruction

/-- One step of the search. -/
theorem search_succ
    (steps l r : Nat) :
    store.search entries x86Code (steps + 1) l r =
      if l = r then
        .ok 0
      else if x86Code < (store.block (entries.getD ((l + r) / 2) 0)).x86Start then
        store.search entries x86Code steps l ((l + r) / 2)
      else if (store.block (entries.getD ((l + r) / 2) 0)).x86End ≤ x86Code then
        store.search entries x86Code steps ((l + r) / 2 + 1) r
      else
        store.located (store.block (entries.getD ((l + r) / 2) 0)) x86Code :=
  rfl

/-- An address of no block is not found. -/
theorem search_of_not_covered
    (none : ∀ index ∈ entries, ¬store.Covers index x86Code)
    {steps l r : Nat}
    (le : l ≤ r)
    (bound : r ≤ entries.length) :
    store.search entries x86Code steps l r = .ok 0 := by
  induction steps generalizing l r with
  | zero => rfl
  | succ steps inductionHypothesis =>
      rw [search_succ]
      split
      · rfl
      · rename_i different
        have middle : (l + r) / 2 < entries.length := by omega
        split
        · exact inductionHypothesis (by omega) (by omega)
        · rename_i notBefore
          split
          · exact inductionHypothesis (by omega) (by omega)
          · rename_i notBehind
            refine absurd ⟨BitVec.not_lt.mp notBefore,
              BitVec.not_le.mp notBehind⟩ (none _ ?_)
            rw [List.getD_eq_getElem?_getD, List.getElem?_eq_getElem middle]
            exact List.getElem_mem middle

/-- Of two blocks of a page, the first one starts and ends in front of the
start of the second one. -/
def Apart (store : CodeStore) (first second : Nat) : Prop :=
  (store.block first).x86Start < (store.block second).x86Start ∧
    (store.block first).x86End ≤ (store.block second).x86Start

/-- The search between two indices finds the block between them that covers
the address. -/
theorem search_of_covered
    (apart : entries.Pairwise store.Apart)
    {position index : Nat}
    (found : entries[position]? = some index)
    (covered : store.Covers index x86Code)
    {steps l r : Nat}
    (low : l ≤ position)
    (high : position < r)
    (bound : r ≤ entries.length)
    (enough : r - l < steps) :
    store.search entries x86Code steps l r =
      store.located (store.block index) x86Code := by
  induction steps generalizing l r with
  | zero => omega
  | succ steps inductionHypothesis =>
      obtain ⟨positionLt, atPosition⟩ := List.getElem?_eq_some_iff.mp found
      have middle : (l + r) / 2 < entries.length := by omega
      have middleEq : entries.getD ((l + r) / 2) 0 = entries[(l + r) / 2] := by
        rw [List.getD_eq_getElem?_getD, List.getElem?_eq_getElem middle]
        rfl
      have inFront (before : (l + r) / 2 < position) :=
        List.pairwise_iff_getElem.mp apart _ _ middle positionLt before
      have behind (after : position < (l + r) / 2) :=
        List.pairwise_iff_getElem.mp apart _ _ positionLt middle after
      rw [atPosition] at inFront behind
      rw [search_succ, if_neg (by omega), middleEq]
      obtain ⟨startLe, ltEnd⟩ := covered
      split
      · rename_i before
        refine inductionHypothesis low ?_ (by omega) (by omega)
        by_contra notBehind
        rcases Nat.lt_or_eq_of_le (Nat.le_of_not_lt notBehind) with less | same
        · have starts := (inFront less).1
          bv_omega
        · simp only [same, atPosition] at before
          bv_omega
      · rename_i notBefore
        split
        · rename_i ended
          refine inductionHypothesis ?_ high bound (by omega)
          by_contra notInFront
          rcases Nat.lt_or_eq_of_le (Nat.le_of_lt_succ
            (Nat.lt_of_not_le notInFront)) with less | same
          · have stops := (behind less).2
            bv_omega
          · simp only [← same, atPosition] at ended
            bv_omega
        · rename_i notEnded
          rcases Nat.lt_trichotomy ((l + r) / 2) position with
            less | same | greater
          · have stops := (inFront less).2
            bv_omega
          · simp only [same, atPosition]
          · have stops := (behind greater).2
            bv_omega

end Search

/-! ## Lookup in a store that holds blocks -/

section Find

variable
  {elf : Elf}
  {memory : Memory}
  {store : CodeStore}
  {blocks : List GuestBlock}

/-- The blocks of a page lie one behind the other. -/
theorem Holds.apart
    (held : Holds elf memory store blocks)
    (placed : ∀ block ∈ blocks, block.Placed elf)
    (disjoint : blocks.Pairwise GuestBlock.Disjoint)
    {page : Nat}
    {entries : List Nat}
    (found : store.pages[page]? = some entries) :
    entries.Pairwise store.Apart := by
  obtain ⟨sorted, members⟩ := held.pages.2 page entries found
  refine sorted.imp_of_mem ?_
  intro first second firstMember secondMember less
  refine ⟨less, ?_⟩
  obtain ⟨block, blockFound, nonempty, _⟩ := (members first).mp firstMember
  obtain ⟨other, otherFound, otherNonempty, _⟩ :=
    (members second).mp secondMember
  have stored := held.stored first block blockFound
  have otherStored := held.stored second other otherFound
  have starts := stored.starts nonempty
  have otherStarts := otherStored.starts otherNonempty
  have stops := stored.stops nonempty
  have member := List.mem_of_getElem? blockFound
  have otherMember := List.mem_of_getElem? otherFound
  have extent := (placed block member).start_lt_stop nonempty
  have otherExtent := (placed other otherMember).start_lt_stop otherNonempty
  simp only [start, starts, otherStarts, BitVec.lt_def] at less
  have different : block ≠ other := by
    rintro rfl
    exact less.false
  have ordered := (disjoint.forall member otherMember different).ordered
    extent otherExtent
  rw [otherStarts, BitVec.le_def, stops]
  omega

/-- The page of an address of the image. -/
theorem Holds.find_eq
    (held : Holds elf memory store blocks)
    {address : BitVec 64}
    (inside : elf.Contains address) :
    ∃ entries,
      store.pages[elf.pageOfNat address.toNat]? = some entries ∧
        find elf store address =
          store.search entries address (entries.length + 1) 0
            entries.length := by
  obtain ⟨low, high⟩ := (elf.contains_iff address).mp inside
  obtain ⟨entries, found, pageOk⟩ :=
    held.pages.page (Elf.pageOfNat_lt low high)
  refine ⟨entries, found, ?_⟩
  rw [find, getPageIndex_eq low, pageOk]
  rfl

/-- The search for an address of a block ends at its entry. -/
theorem Holds.find_of_contains
    (held : Holds elf memory store blocks)
    (placed : ∀ block ∈ blocks, block.Placed elf)
    (disjoint : blocks.Pairwise GuestBlock.Disjoint)
    {index : Nat}
    {block : GuestBlock}
    (blockFound : blocks[index]? = some block)
    {address : BitVec 64}
    (contains : block.Contains address) :
    find elf store address = store.located (store.block index) address := by
  have blockPlaced := placed block (List.mem_of_getElem? blockFound)
  obtain ⟨low, high⟩ := contains
  have startGe := blockPlaced.start_ge
  have stopLt := blockPlaced.stop_lt
  have nonempty : block.instructions ≠ [] := by
    intro none
    rw [GuestBlock.stop, none, guestLength_nil] at high
    omega
  have stored := held.stored index block blockFound
  have starts := stored.starts nonempty
  have stops := stored.stops nonempty
  obtain ⟨entries, found, findEq⟩ := held.find_eq
    ((elf.contains_iff address).mpr ⟨by omega, by omega⟩)
  have member : index ∈ entries :=
    ((held.pages.2 _ _ found).2 index).mpr ⟨block, blockFound, nonempty,
      Elf.pageOfNat_mono low, Elf.pageOfNat_mono high.le⟩
  obtain ⟨position, atPosition⟩ := List.mem_iff_getElem?.mp member
  have positionLt := (List.getElem?_eq_some_iff.mp atPosition).1
  rw [findEq]
  refine search_of_covered (held.apart placed disjoint found) atPosition ?_
    (Nat.zero_le _) positionLt le_rfl (by omega)
  refine ⟨?_, ?_⟩
  · rw [starts, BitVec.le_def]
    exact low
  · rw [BitVec.lt_def, stops]
    exact high

/-- An address of no block is not found. -/
theorem Holds.find_of_not_contains
    (held : Holds elf memory store blocks)
    {address : BitVec 64}
    (inside : elf.Contains address)
    (none : ∀ block ∈ blocks, ¬block.Contains address) :
    find elf store address = .ok 0 := by
  obtain ⟨entries, found, findEq⟩ := held.find_eq inside
  rw [findEq]
  refine search_of_not_covered ?_ (Nat.zero_le _) le_rfl
  rintro index member ⟨startLe, ltEnd⟩
  obtain ⟨block, blockFound, nonempty, _⟩ :=
    ((held.pages.2 _ _ found).2 index).mp member
  have stored := held.stored index block blockFound
  refine none block (List.mem_of_getElem? blockFound) ⟨?_, ?_⟩
  · rwa [stored.starts nonempty, BitVec.le_def] at startLe
  · rwa [BitVec.lt_def, stored.stops nonempty] at ltEnd

/-- The instruction that starts at an address of a block is found. -/
theorem StoresBlock.located_of_startsAt
    {entry : BlockEntry}
    {block : GuestBlock}
    (stored : StoresBlock memory store entry block)
    (encodable : ∀ addition ∈ block.instructions, addition.Encodable)
    {address : BitVec 64}
    {front : List Addition}
    {addition : Addition}
    (starts : block.StartsAt address front addition) :
    store.located entry address =
      .ok (entry.riscvStart +
        BitVec.ofNat 64 (4 * (hostCode front).length)) := by
  obtain ⟨⟨back, instructions⟩, addressEq⟩ := starts
  have nonempty : block.instructions ≠ [] := by simp [instructions]
  have offsets := stored.offsets
  rw [instructions] at offsets encodable
  rw [CodeStore.located, stored.count, stored.starts nonempty, instructions,
    locate_of_start offsets
      (fun other member => encodable other (List.mem_append_left _ member))
      addressEq]

/-- The code of an instruction follows the code of those before it. -/
theorem StoresBlock.code_of_startsAt
    {entry : BlockEntry}
    {block : GuestBlock}
    (stored : StoresBlock memory store entry block)
    {address : BitVec 64}
    {front : List Addition}
    {addition : Addition}
    (starts : block.StartsAt address front addition) :
    ∃ pointer, pointer ≠ 0 ∧ pointer < 2 ^ 62 ∧
      entry.riscvStart + BitVec.ofNat 64 (4 * (hostCode front).length) =
        hostAddress pointer ∧
      store.codeBuffer.Stores memory.code pointer addition.code := by
  obtain ⟨⟨back, instructions⟩, _⟩ := starts
  have located := stored.located (by simp [instructions])
  have code := stored.code
  have codeLt := stored.code_lt
  have split : hostCode block.instructions =
      hostCode front ++ (addition.code ++ hostCode back) := by
    rw [instructions, hostCode_append, hostCode_cons]
  rw [split] at code codeLt
  rw [List.length_append] at codeLt
  refine ⟨codePointer entry.riscvStart + (hostCode front).length, by omega,
    by omega, ?_, code.append_right.append_left⟩
  rw [stored.aligned, codePointer_hostAddress (by omega)]
  simp only [hostAddress, Nat.mul_add, BitVec.ofNat_add]

/-- The host address of every instruction of the blocks is found, no other
address is, and only an address inside of an instruction ends the program. -/
structure ExactLookup
    (elf : Elf)
    (memory : Memory)
    (store : CodeStore)
    (blocks : List GuestBlock) : Prop where
  pages_sorted : ∀ entries ∈ store.pages, Sorted store.start entries
  find_start : ∀ index block address front addition,
    blocks[index]? = some block ->
      block.StartsAt address front addition ->
        ∃ pointer, pointer ≠ 0 ∧ pointer < 2 ^ 62 ∧
          (store.block index).riscvStart +
              BitVec.ofNat 64 (4 * (hostCode front).length) =
            hostAddress pointer ∧
          store.codeBuffer.Stores memory.code pointer addition.code ∧
          find elf store address = .ok (hostAddress pointer)
  find_none : ∀ address, elf.Contains address ->
    (∀ block ∈ blocks, ¬block.Contains address) ->
      find elf store address = .ok 0
  find_fault : ∀ address fault, elf.Contains address ->
    find elf store address = .error fault ->
      fault = .jumpInsideInstruction ∧
        ∃ block ∈ blocks, block.StrictlyInside address

/-- The lookup is exact in a store that holds blocks without overlap. -/
theorem Holds.exactLookup
    (held : Holds elf memory store blocks)
    (placed : ∀ block ∈ blocks, block.Placed elf)
    (disjoint : blocks.Pairwise GuestBlock.Disjoint) :
    ExactLookup elf memory store blocks where
  pages_sorted := by
    intro entries member
    obtain ⟨page, found⟩ := List.mem_iff_getElem?.mp member
    exact (held.pages.2 page entries found).1
  find_start := by
    intro index block address front addition blockFound starts
    have stored := held.stored index block blockFound
    have blockPlaced := placed block (List.mem_of_getElem? blockFound)
    obtain ⟨pointer, notNull, bound, pointerEq, code⟩ :=
      stored.code_of_startsAt starts
    refine ⟨pointer, notNull, bound, pointerEq, code, ?_⟩
    rw [held.find_of_contains placed disjoint blockFound
      (starts.contains blockPlaced), ← pointerEq]
    exact stored.located_of_startsAt blockPlaced.encodable starts
  find_none := fun address inside none =>
    held.find_of_not_contains inside none
  find_fault := by
    intro address fault inside faults
    by_cases covered : ∃ block ∈ blocks, block.Contains address
    · obtain ⟨block, member, contains⟩ := covered
      obtain ⟨index, blockFound⟩ := List.mem_iff_getElem?.mp member
      rw [held.find_of_contains placed disjoint blockFound contains] at faults
      rcases contains.starts_or_inside with
        ⟨front, addition, starts⟩ | strictly
      · rw [(held.stored index block blockFound).located_of_startsAt
          (placed block member).encodable starts] at faults
        cases faults
      · refine ⟨?_, block, member, strictly⟩
        unfold located at faults
        split at faults
        · cases faults
        · exact (Except.error.inj faults).symm
    · rw [held.find_of_not_contains inside fun block member contains =>
        covered ⟨block, member, contains⟩] at faults
      cases faults

end Find

/-- After any insertions of blocks that do not overlap, the lookup is
exact. -/
theorem insertAll_exactLookup
    {elf : Elf}
    {memory : Memory}
    {blocks : List GuestBlock}
    {store : CodeStore}
    (placed : ∀ block ∈ blocks, block.Placed elf)
    (disjoint : blocks.Pairwise GuestBlock.Disjoint)
    (inserted : insertAll elf memory blocks = .ok store) :
    ExactLookup elf memory store blocks :=
  (insertAll_holds placed disjoint inserted).exactLookup placed disjoint

/-- A block in the middle of a page, one in front of it that ends at its
start, and one that reaches from a page into the next one. -/
def exampleBlocks : List GuestBlock :=
  [⟨0x400010, [⟨2, [0x13, 0x13]⟩, ⟨1, [0x67]⟩]⟩,
    ⟨0x40000d, [⟨3, [0x13]⟩]⟩,
    ⟨0x400fff, [⟨1, [0x13]⟩, ⟨15, []⟩, ⟨1, [0x67]⟩]⟩]

theorem exampleBlocks_disjoint :
    exampleBlocks.Pairwise GuestBlock.Disjoint := by
  simp only [exampleBlocks, List.pairwise_cons, List.mem_cons,
    List.not_mem_nil, or_false, forall_eq_or_imp, forall_eq, and_true,
    List.Pairwise.nil, false_imp_iff, implies_true]
  refine ⟨⟨?_, ?_⟩, ?_⟩
  · exact symm (GuestBlock.Disjoint.of_le (by decide))
  · exact GuestBlock.Disjoint.of_le (by decide)
  · exact GuestBlock.Disjoint.of_le (by decide)

/-- Two pages of code, of which a store with small buffers takes blocks. -/
theorem insertAll_exactLookup_exampleBlocks :
    let elf := Elf.ofPages 2 (fun _ => 0x90) (by decide)
    let memory := Memory.mk 4 3 (.consecutive 4) (.consecutive 3)
    ∃ store, insertAll elf memory exampleBlocks = .ok store ∧
      ExactLookup elf memory store exampleBlocks := by
  intro elf memory
  have succeeds : (insertAll elf memory exampleBlocks).isOk = true := by
    decide +kernel
  cases inserted : insertAll elf memory exampleBlocks with
  | error fault =>
      rw [inserted] at succeeds
      cases succeeds
  | ok store =>
      refine ⟨store, rfl,
        insertAll_exactLookup ?_ exampleBlocks_disjoint inserted⟩
      decide +kernel

end CodeStore
end Oxtra

import Oxtra.CodeStore.Bounds
import Oxtra.CodeStore.Lookup

/-!
# Unknown addresses and the next block

An address that `find` does not know lies in no block, and the next block of an
address is the first one that starts at the address or behind it.
-/

namespace Oxtra
namespace CodeStore

open Addition

variable
  {elf : Elf}
  {memory : Memory}
  {store : CodeStore}
  {blocks : List GuestBlock}

/-! ## Unknown addresses -/

/-- The walk over a block ends in front of one of its instructions. -/
theorem locate_eq_some
    {size : Nat}
    {allocator : Allocator size}
    {offsets : StaticList InstructionOffset}
    {instructions : List Addition}
    {pointer : Nat}
    {guestAddress hostAddress host x86Code : BitVec 64}
    (stored : offsets.Stores allocator pointer
      (instructions.map Addition.offset))
    (encodable : ∀ addition ∈ instructions, addition.Encodable)
    (found : locate offsets.cells x86Code instructions.length pointer
      guestAddress hostAddress = some host) :
    ∃ front back, instructions = front ++ back ∧
      host = hostAddress + BitVec.ofNat 64 (4 * (hostCode front).length) := by
  induction instructions generalizing pointer guestAddress hostAddress with
  | nil => cases found
  | cons first rest inductionHypothesis =>
      rw [List.length_cons, locate] at found
      split at found
      · obtain rfl := Option.some.inj found
        exact ⟨[], first :: rest, rfl, by simp⟩
      · have firstEncodable := encodable first List.mem_cons_self
        have content : offsets.cells pointer = first.offset :=
          (stored 0 first.offset rfl).2
        have hostEq : first.offset.riscv.setWidth 64 =
            BitVec.ofNat 64 (4 * first.code.length) := by
          apply BitVec.eq_of_toNat_eq
          rw [BitVec.toNat_setWidth, firstEncodable.riscv_toNat]
          rfl
        simp only [content] at found
        obtain ⟨front, back, rfl, hostFound⟩ := inductionHypothesis
          (@StaticList.Stores.append_right _ _ _ _ _ [first.offset] _ stored)
          (fun addition member =>
            encodable addition (List.mem_cons_of_mem _ member)) found
        refine ⟨first :: front, back, rfl, ?_⟩
        rw [hostFound, hostEq, hostCode_cons, List.length_append, Nat.mul_add,
          BitVec.ofNat_add, BitVec.add_assoc]

theorem hostAddress_ne_zero
    {pointer : Nat}
    (notNull : pointer ≠ 0)
    (bound : pointer < 2 ^ 62) :
    hostAddress pointer ≠ 0 := by
  intro zero
  have pointerEq := codePointer_hostAddress bound
  rw [zero] at pointerEq
  exact notNull pointerEq.symm

/-- The code of a block is not at the null address. -/
theorem StoresBlock.located_ne_zero
    {entry : BlockEntry}
    {block : GuestBlock}
    {address : BitVec 64}
    (stored : StoresBlock memory store entry block)
    (nonempty : block.instructions ≠ [])
    (encodable : ∀ addition ∈ block.instructions, addition.Encodable) :
    store.located entry address ≠ .ok 0 := by
  intro zero
  rw [CodeStore.located, stored.count] at zero
  split at zero
  · rename_i host found
    obtain ⟨front, back, instructions, hostEq⟩ :=
      locate_eq_some stored.offsets encodable found
    have notNull := stored.located nonempty
    have codeLt := stored.code_lt
    rw [instructions, hostCode_append, List.length_append] at codeLt
    obtain rfl := Except.ok.inj zero
    rw [stored.aligned, hostAddress, ← BitVec.ofNat_add, ← Nat.mul_add]
      at hostEq
    exact hostAddress_ne_zero
      (by omega : codePointer entry.riscvStart + (hostCode front).length ≠ 0)
      (by omega) hostEq.symm
  · cases zero

/-- An address without host code lies in no block. -/
theorem Holds.not_contains_of_find_zero
    (held : Holds elf memory store blocks)
    (placed : ∀ block ∈ blocks, block.Placed elf)
    (disjoint : blocks.Pairwise GuestBlock.Disjoint)
    {address : BitVec 64}
    (unknown : find elf store address = .ok 0) :
    ∀ block ∈ blocks, ¬block.Contains address := by
  intro block member contains
  obtain ⟨index, found⟩ := List.mem_iff_getElem?.mp member
  have nonempty : block.instructions ≠ [] := by
    intro none
    obtain ⟨low, high⟩ := contains
    rw [GuestBlock.stop, none, guestLength_nil] at high
    omega
  rw [held.find_of_contains placed disjoint found contains] at unknown
  exact (held.stored index block found).located_ne_zero nonempty
    (placed block member).encodable unknown

/-! ## The next block -/

/-- The start of the next stored block. -/
def nextStart (elf : Elf) (store : CodeStore) (addr : BitVec 64) :
    Option (BitVec 64) :=
  (store.getNextBlock elf addr).map fun index => (store.block index).x86Start

/-- A block that reaches into a page. -/
theorem Holds.of_reaches
    {index page : Nat}
    (held : Holds elf memory store blocks)
    (placed : ∀ block ∈ blocks, block.Placed elf)
    (reached : Reaches elf blocks index page) :
    ∃ block ∈ blocks, blocks[index]? = some block ∧
      store.start index = block.start ∧
      block.start.toNat < block.stop ∧
      elf.pageOfNat block.start.toNat ≤ page ∧
      page ≤ elf.pageOfNat block.stop := by
  obtain ⟨block, found, nonempty, low, high⟩ := reached
  have member := List.mem_of_getElem? found
  exact ⟨block, member, found, (held.stored index block found).starts nonempty,
    (placed block member).start_lt_stop nonempty, low, high⟩

/-- The blocks of earlier pages do not start behind those of later pages. -/
theorem Holds.pages_ordered
    (held : Holds elf memory store blocks)
    (placed : ∀ block ∈ blocks, block.Placed elf)
    (disjoint : blocks.Pairwise GuestBlock.Disjoint)
    {first second : Nat}
    {page later : Nat}
    (less : page < later)
    (firstReaches : Reaches elf blocks first page)
    (secondReaches : Reaches elf blocks second later) :
    store.start first ≤ store.start second := by
  obtain ⟨block, member, found, start, extent, low, _⟩ :=
    held.of_reaches placed firstReaches
  obtain ⟨other, otherMember, otherFound, otherStart, otherExtent, _,
    otherHigh⟩ := held.of_reaches placed secondReaches
  rw [start, otherStart, BitVec.le_def]
  by_cases same : block = other
  · rw [same]
  · rcases (disjoint.forall member otherMember same).ordered extent
      otherExtent with before | behind
    · omega
    · have spread := @Elf.pageOfNat_mono elf _ _ behind
      omega

/-- All entries of consecutive pages are sorted by their starts. -/
theorem Holds.flatten_sorted
    (held : Holds elf memory store blocks)
    (placed : ∀ block ∈ blocks, block.Placed elf)
    (disjoint : blocks.Pairwise GuestBlock.Disjoint)
    (page : Nat) :
    (store.pages.drop page).flatten.Pairwise fun first second =>
      store.start first ≤ store.start second := by
  rw [List.pairwise_flatten]
  refine ⟨?_, ?_⟩
  · intro entries dropped
    obtain ⟨position, found⟩ :=
      List.mem_iff_getElem?.mp (List.mem_of_mem_drop dropped)
    refine (held.pages.2 position entries found).1.imp ?_
    intro first second less
    exact BitVec.le_of_lt less
  · refine List.Pairwise.sublist (List.drop_sublist page store.pages) ?_
    rw [List.pairwise_iff_getElem]
    intro earlier later earlierBound laterBound less first firstMember second
      secondMember
    have firstReaches := ((held.pages.2 earlier _
      (List.getElem?_eq_getElem earlierBound)).2 first).mp firstMember
    have secondReaches := ((held.pages.2 later _
      (List.getElem?_eq_getElem laterBound)).2 second).mp secondMember
    exact held.pages_ordered placed disjoint less firstReaches secondReaches

/-- The first element that satisfies a predicate is related to all others that
do. -/
theorem rel_of_find?_eq_some
    {T : Type}
    {relation : T -> T -> Prop}
    {satisfies : T -> Bool}
    {elements : List T}
    {first other : T}
    (reflexive : ∀ element, relation element element)
    (sorted : elements.Pairwise relation)
    (found : elements.find? satisfies = some first)
    (member : other ∈ elements)
    (satisfied : satisfies other = true) :
    relation first other := by
  obtain ⟨_, front, back, rfl, before⟩ := List.find?_eq_some_iff_append.mp found
  rcases List.mem_append.mp member with early | late
  · have missed := before other early
    rw [satisfied] at missed
    cases missed
  · rcases List.mem_cons.mp late with rfl | later
    · exact reflexive other
    · exact (List.pairwise_cons.mp (List.pairwise_append.mp sorted).2.1).1
        other later

/-- A block that does not start before an address is entered in the page of the
address or in one behind it. -/
theorem Holds.mem_drop_pages
    (held : Holds elf memory store blocks)
    (placed : ∀ block ∈ blocks, block.Placed elf)
    {address : BitVec 64}
    (inside : elf.Contains address)
    {index : Nat}
    {block : GuestBlock}
    (found : blocks[index]? = some block)
    (nonempty : block.instructions ≠ [])
    (behind : address ≤ block.start) :
    index ∈ (store.pages.drop (getPageIndex elf address)).flatten := by
  obtain ⟨low, _⟩ := (elf.contains_iff address).mp inside
  have blockPlaced := placed block (List.mem_of_getElem? found)
  have extent := blockPlaced.start_lt_stop nonempty
  have stopLt := blockPlaced.stop_lt
  have startLow := blockPlaced.start_ge
  obtain ⟨entries, atPage, _⟩ := held.pages.page
    (Elf.pageOfNat_lt startLow (by omega))
  have entered : index ∈ entries :=
    ((held.pages.2 _ _ atPage).2 index).mpr ⟨block, found, nonempty, le_rfl,
      Elf.pageOfNat_mono extent.le⟩
  refine List.mem_flatten.mpr ⟨entries, ?_, entered⟩
  have pageLe : getPageIndex elf address ≤
      elf.pageOfNat block.start.toNat := by
    rw [getPageIndex_eq low]
    exact Elf.pageOfNat_mono behind
  rw [List.mem_iff_getElem?]
  refine ⟨elf.pageOfNat block.start.toNat - getPageIndex elf address, ?_⟩
  rw [List.getElem?_drop, Nat.add_sub_cancel' pageLe, atPage]

/-- The next block of an address: a stored block that does not start before the
address, while all others that do not start before it start behind this one. -/
structure IsNextBlock
    (store : CodeStore)
    (blocks : List GuestBlock)
    (address : BitVec 64)
    (index : Nat)
    (block : GuestBlock) : Prop where
  found : blocks[index]? = some block
  nonempty : block.instructions ≠ []
  starts : (store.block index).x86Start = block.start
  behind : address ≤ block.start
  least : ∀ other ∈ blocks, other.instructions ≠ [] ->
    address ≤ other.start -> block.start ≤ other.start

/-- What `get_next_block` returns is the next block. -/
theorem Holds.isNextBlock_of_eq
    (held : Holds elf memory store blocks)
    (placed : ∀ block ∈ blocks, block.Placed elf)
    (disjoint : blocks.Pairwise GuestBlock.Disjoint)
    {address : BitVec 64}
    (inside : elf.Contains address)
    {index : Nat}
    (next : store.getNextBlock elf address = some index) :
    ∃ block, IsNextBlock store blocks address index block := by
  have listed := List.mem_of_find?_eq_some next
  have reached : address ≤ (store.block index).x86Start := by
    have satisfied := List.find?_some next
    exact of_decide_eq_true satisfied
  obtain ⟨entries, dropped, entered⟩ := List.mem_flatten.mp listed
  obtain ⟨page, atPage⟩ :=
    List.mem_iff_getElem?.mp (List.mem_of_mem_drop dropped)
  obtain ⟨block, found, nonempty, _⟩ :=
    ((held.pages.2 page entries atPage).2 index).mp entered
  have starts := (held.stored index block found).starts nonempty
  refine ⟨block, found, nonempty, starts, starts ▸ reached, ?_⟩
  intro other member otherNonempty behind
  obtain ⟨otherIndex, otherFound⟩ := List.mem_iff_getElem?.mp member
  have otherStarts :=
    (held.stored otherIndex other otherFound).starts otherNonempty
  have otherListed := held.mem_drop_pages placed inside otherFound
    otherNonempty behind
  have sorted := held.flatten_sorted placed disjoint (getPageIndex elf address)
  have satisfied : decide ((store.block otherIndex).x86Start ≥ address) =
      true := by
    rw [otherStarts]
    exact decide_eq_true behind
  have least := rel_of_find?_eq_some
    (fun index => BitVec.le_refl (store.start index)) sorted next otherListed
    satisfied
  rwa [start, start, starts, otherStarts] at least

/-- Without a next block, all blocks start before the address. -/
theorem Holds.getNextBlock_eq_none_iff
    (held : Holds elf memory store blocks)
    (placed : ∀ block ∈ blocks, block.Placed elf)
    (disjoint : blocks.Pairwise GuestBlock.Disjoint)
    {address : BitVec 64}
    (inside : elf.Contains address) :
    store.getNextBlock elf address = none ↔
      ∀ block ∈ blocks, block.instructions ≠ [] ->
        block.start < address := by
  constructor
  · intro next block member nonempty
    obtain ⟨index, found⟩ := List.mem_iff_getElem?.mp member
    by_contra notBefore
    have behind : address ≤ block.start := BitVec.not_lt.mp notBefore
    have absent := List.find?_eq_none.mp next index
      (held.mem_drop_pages placed inside found nonempty behind)
    rw [(held.stored index block found).starts nonempty] at absent
    exact absent (decide_eq_true behind)
  · intro before
    cases next : store.getNextBlock elf address with
    | none => rfl
    | some index =>
        obtain ⟨block, isNext⟩ :=
          held.isNextBlock_of_eq placed disjoint inside next
        have less := before block (List.mem_of_getElem? isNext.found)
          isNext.nonempty
        exact absurd isNext.behind (BitVec.not_le.mpr less)

/-- Blocks without overlap have different starts. -/
theorem index_eq_of_start_eq
    (placed : ∀ block ∈ blocks, block.Placed elf)
    (disjoint : blocks.Pairwise GuestBlock.Disjoint)
    {first second : Nat}
    {block other : GuestBlock}
    (found : blocks[first]? = some block)
    (otherFound : blocks[second]? = some other)
    (nonempty : block.instructions ≠ [])
    (otherNonempty : other.instructions ≠ [])
    (same : block.start = other.start) :
    first = second := by
  have meet : ¬ block.Disjoint other := by
    intro apart
    have extent := (placed block (List.mem_of_getElem? found)).start_lt_stop
      nonempty
    have otherExtent := (placed other
      (List.mem_of_getElem? otherFound)).start_lt_stop otherNonempty
    rw [← same] at otherExtent
    exact apart block.start ⟨⟨le_rfl, extent⟩, same ▸ le_rfl, otherExtent⟩
  obtain ⟨firstBound, rfl⟩ := List.getElem?_eq_some_iff.mp found
  obtain ⟨secondBound, rfl⟩ := List.getElem?_eq_some_iff.mp otherFound
  rcases Nat.lt_trichotomy first second with less | equal | greater
  · exact absurd (List.pairwise_iff_getElem.mp disjoint _ _ _ _ less) meet
  · exact equal
  · exact absurd (symm (List.pairwise_iff_getElem.mp disjoint _ _ _ _ greater))
      meet

/-- The next block starts at the address or behind it, and no block starts in
between. -/
theorem Holds.nextStart_le
    (held : Holds elf memory store blocks)
    (placed : ∀ block ∈ blocks, block.Placed elf)
    (disjoint : blocks.Pairwise GuestBlock.Disjoint)
    {address : BitVec 64}
    (inside : elf.Contains address)
    {block : GuestBlock}
    (member : block ∈ blocks)
    (nonempty : block.instructions ≠ [])
    (behind : address ≤ block.start) :
    ∃ start, nextStart elf store address = some start ∧ address ≤ start ∧
      start ≤ block.start := by
  cases next : store.getNextBlock elf address with
  | none =>
      have before := (held.getNextBlock_eq_none_iff placed disjoint
        inside).mp next block member nonempty
      exact absurd behind (BitVec.not_le.mpr before)
  | some index =>
      obtain ⟨first, isNext⟩ :=
        held.isNextBlock_of_eq placed disjoint inside next
      refine ⟨first.start, ?_, isNext.behind,
        isNext.least block member nonempty behind⟩
      rw [nextStart, next, Option.map_some, isNext.starts]

/-- After any insertions of blocks of the image that do not overlap,
`get_next_block` returns the next block, if there is one. -/
theorem insertAll_getNextBlock
    (contained : ∀ block ∈ blocks, block.InImage elf)
    (disjoint : blocks.Pairwise GuestBlock.Disjoint)
    (inserted : insertAll elf memory blocks = .ok store)
    {address : BitVec 64}
    (inside : elf.Contains address) :
    (∀ index, store.getNextBlock elf address = some index ↔
        ∃ block, IsNextBlock store blocks address index block) ∧
      (store.getNextBlock elf address = none ↔
        ∀ block ∈ blocks, block.instructions ≠ [] ->
          block.start < address) := by
  have placed := insertAll_placed contained disjoint inserted
  have held := insertAll_holds placed disjoint inserted
  refine ⟨fun index => ⟨held.isNextBlock_of_eq placed disjoint inside, ?_⟩,
    held.getNextBlock_eq_none_iff placed disjoint inside⟩
  rintro ⟨block, isNext⟩
  have member := List.mem_of_getElem? isNext.found
  cases next : store.getNextBlock elf address with
  | none =>
      have before := (held.getNextBlock_eq_none_iff placed disjoint
        inside).mp next block member isNext.nonempty
      exact absurd isNext.behind (BitVec.not_le.mpr before)
  | some other =>
      obtain ⟨first, otherNext⟩ :=
        held.isNextBlock_of_eq placed disjoint inside next
      have otherMember := List.mem_of_getElem? otherNext.found
      have same : first.start = block.start := BitVec.le_antisymm
        (otherNext.least block member isNext.nonempty isNext.behind)
        (isNext.least first otherMember otherNext.nonempty otherNext.behind)
      rw [index_eq_of_start_eq placed disjoint otherNext.found
        isNext.found otherNext.nonempty isNext.nonempty same]

/-- Behind the first page there is no block but the one that reaches into
the second page from the first. -/
theorem insertAll_getNextBlock_exampleBlocks :
    let elf := Elf.ofPages 2 (fun _ => 0x90) (by decide)
    let memory := Memory.mk 4 3 (.consecutive 4) (.consecutive 3)
    ∃ store, insertAll elf memory exampleBlocks = .ok store ∧
      (∀ index, store.getNextBlock elf 0x400020 = some index ↔
        ∃ block, IsNextBlock store exampleBlocks 0x400020 index block) ∧
      (store.getNextBlock elf 0x400020 = none ↔
        ∀ block ∈ exampleBlocks, block.instructions ≠ [] ->
          block.start < 0x400020) := by
  intro elf memory
  have succeeds : (insertAll elf memory exampleBlocks).isOk = true := by
    decide +kernel
  cases inserted : insertAll elf memory exampleBlocks with
  | error fault =>
      rw [inserted] at succeeds
      cases succeeds
  | ok store =>
      refine ⟨store, rfl, insertAll_getNextBlock ?_ exampleBlocks_disjoint
        inserted (by decide)⟩
      decide +kernel

end CodeStore
end Oxtra

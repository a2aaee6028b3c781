import Oxtra.CodeStore.Insertion

/-!
# Bounds of the page array

The page array is accessed for the address of an instruction and for the
address behind it.  Whether or not the stored blocks overlap, both accesses are
within the bounds when both addresses lie in the image.
-/

namespace Oxtra
namespace CodeStore

open Addition (guestLength)

variable {elf : Elf} {memory : Memory} {store after : CodeStore}

/-! ## What is kept -/

/-- The entry of a block is in use. -/
def Occupied (store : CodeStore) (index : Nat) : Prop :=
  (store.block index).instructionCount ≠ 0 ∨
    ∃ entries ∈ store.pages, index ∈ entries

/-- There is an array for each page of the image, and the blocks start in the
image. -/
structure Bounded (elf : Elf) (store : CodeStore) : Prop where
  length_pages : store.pages.length = elf.pageCount
  start_contained : ∀ index, store.Occupied index ->
    elf.Contains (store.start index)

theorem empty_bounded : Bounded elf (empty elf) where
  length_pages := by simp [empty]
  start_contained := by
    rintro index (counted | ⟨entries, member, inside⟩)
    · simp [block, empty] at counted
    · obtain rfl := List.eq_of_mem_replicate member
      cases inside

theorem createBlock_block (index : Nat) :
    store.createBlock.2.block index = store.block index := by
  simp only [createBlock, block, List.getD_eq_getElem?_getD]
  rcases Nat.lt_trichotomy index store.blocks.length with less | rfl | greater
  · rw [List.getElem?_append_left less]
  · simp
  · rw [List.getElem?_eq_none (by simpa using Nat.succ_le_of_lt greater),
      List.getElem?_eq_none (by omega)]

theorem Bounded.createBlock (bounded : Bounded elf store) :
    Bounded elf store.createBlock.2 where
  length_pages := bounded.length_pages
  start_contained := by
    intro index occupied
    have starts := bounded.start_contained index
    rw [start, createBlock_block]
    apply starts
    rwa [Occupied, createBlock_block] at occupied

/-! ## Accesses -/

theorem getPageIndex_lt
    {address : BitVec 64}
    (bounded : Bounded elf store)
    (inside : elf.Contains address) :
    getPageIndex elf address < store.pages.length := by
  obtain ⟨low, high⟩ := (elf.contains_iff address).mp inside
  rw [bounded.length_pages, getPageIndex_eq low]
  exact Elf.pageOfNat_lt low high

theorem Bounded.page_eq
    {address : BitVec 64}
    (bounded : Bounded elf store)
    (inside : elf.Contains address) :
    ∃ entries, store.page (getPageIndex elf address) = .ok entries ∧
      entries ∈ store.pages := by
  have bound := getPageIndex_lt bounded inside
  refine ⟨store.pages[getPageIndex elf address], ?_, List.getElem_mem bound⟩
  simp [page, List.getElem?_eq_getElem bound]

/-- An access with a result, or a fault that is not an access out of range. -/
def InRange {T : Type} (result : Except Fault T) : Prop :=
  ∀ page, result ≠ .error (.pageOutOfRange page)

theorem InRange.error
    {S T : Type}
    {fault : Fault}
    (inRange : InRange (.error fault : Except Fault S)) :
    InRange (.error fault : Except Fault T) := by
  rintro page ⟨⟩
  exact inRange page rfl

theorem search_inRange
    (store : CodeStore)
    (entries : List Nat)
    (x86Code : BitVec 64)
    (steps l r : Nat) :
    InRange (store.search entries x86Code steps l r) := by
  induction steps generalizing l r with
  | zero => exact fun _ => by simp [search]
  | succ steps inductionHypothesis =>
      unfold search
      split
      · exact fun _ => by simp
      · dsimp only
        split
        · exact inductionHypothesis _ _
        · split
          · exact inductionHypothesis _ _
          · split
            · exact fun _ => by simp
            · exact fun _ => by simp

theorem Bounded.find_inRange
    {address : BitVec 64}
    (bounded : Bounded elf store)
    (inside : elf.Contains address) :
    InRange (store.find elf address) := by
  obtain ⟨entries, pageOk, _⟩ := bounded.page_eq inside
  rw [find, pageOk]
  exact search_inRange store entries address _ 0 _

/-! ## The steps of `add_instruction` -/

/-- A step within the bounds that keeps the store bounded, and keeps the start
of a block in the image. -/
def Steps
    (elf : Elf)
    (index : Nat)
    (store : CodeStore)
    (result : Except Fault CodeStore) : Prop :=
  InRange result ∧ ∀ after, result = .ok after ->
    Bounded elf after ∧ after.blocks.length = store.blocks.length ∧
      elf.Contains (after.start index)

theorem Steps.of_length
    {index : Nat}
    {result : Except Fault CodeStore}
    (length : after.blocks.length = store.blocks.length)
    (steps : Steps elf index after result) :
    Steps elf index store result := by
  rwa [Steps, length] at steps

theorem mem_setPage
    {page : Nat}
    {entries others : List Nat}
    (member : others ∈ (store.setPage page entries).pages) :
    others = entries ∨ others ∈ store.pages :=
  (List.mem_or_eq_of_mem_set member).symm

/-- A page that gets a block with a start in the image. -/
theorem Bounded.setPage
    {index page : Nat}
    {entries added : List Nat}
    (bounded : Bounded elf store)
    (starts : elf.Contains (store.start index))
    (member : entries ∈ store.pages)
    (split : ∀ other ∈ added, other = index ∨ other ∈ entries) :
    Bounded elf (store.setPage page added) where
  length_pages := by
    rw [CodeStore.setPage, List.length_set, bounded.length_pages]
  start_contained := by
    intro other occupied
    change elf.Contains (store.start other)
    rcases occupied with counted | ⟨others, othersMember, inside⟩
    · exact bounded.start_contained other (Or.inl counted)
    · rcases mem_setPage othersMember with rfl | old
      · rcases split other inside with rfl | before
        · exact starts
        · exact bounded.start_contained other (Or.inr ⟨entries, member, before⟩)
      · exact bounded.start_contained other (Or.inr ⟨others, old, inside⟩)

/-- The entry of a new block. -/
theorem Bounded.enterStart
    {index : Nat}
    {address : BitVec 64}
    (bounded : Bounded elf store)
    (inside : elf.Contains address) :
    Bounded elf (store.enterStart index address) where
  length_pages := bounded.length_pages
  start_contained := by
    intro other occupied
    by_cases same : other = index
    · subst same
      by_cases bound : other < store.blocks.length
      · rwa [enterStart_start_self bound]
      · have unchanged : store.enterStart other address = store := by
          rw [CodeStore.enterStart, setBlock,
            List.set_eq_of_length_le (Nat.le_of_not_lt bound)]
        rw [unchanged] at occupied ⊢
        exact bounded.start_contained other occupied
    · rw [enterStart_start_of_ne same]
      rw [Occupied, enterStart_block_of_ne same] at occupied
      exact bounded.start_contained other occupied

theorem insertBlock_steps
    {index : Nat}
    {address : BitVec 64}
    (bounded : Bounded elf store)
    (bound : index < store.blocks.length)
    (inside : elf.Contains address) :
    Steps elf index store (store.insertBlock elf index address) := by
  by_cases new : (store.block index).instructionCount = 0
  · obtain ⟨entries, pageOk, member⟩ := bounded.page_eq inside
    rw [insertBlock_of_new new pageOk]
    refine ⟨fun _ => by simp, ?_⟩
    rintro after ⟨⟩
    have starts : elf.Contains
        ((store.enterStart index address).start index) := by
      rwa [enterStart_start_self bound]
    refine ⟨(bounded.enterStart inside).setPage starts member ?_, ?_, starts⟩
    · intro other inserted
      exact (mem_insertSorted ..).mp inserted
    · simp [CodeStore.setPage, CodeStore.enterStart, setBlock]
  · rw [insertBlock]
    simp only [if_neg new]
    split
    · exact ⟨fun _ => by simp, by simp⟩
    · refine ⟨fun _ => by simp, ?_⟩
      rintro after ⟨⟩
      exact ⟨bounded, rfl, bounded.start_contained index (Or.inl new)⟩

theorem spillBlock_steps
    {index : Nat}
    (bounded : Bounded elf store)
    (starts : elf.Contains (store.start index))
    (ends : elf.Contains (store.block index).x86End) :
    Steps elf index store (store.spillBlock elf index) := by
  obtain ⟨entries, pageOk, member⟩ := bounded.page_eq ends
  rw [spillBlock]
  split
  · simp only [pageOk, bind, Except.bind, pure, Except.pure]
    split
    · refine ⟨fun _ => by simp, ?_⟩
      rintro after ⟨⟩
      exact ⟨bounded, rfl, starts⟩
    · refine ⟨fun _ => by simp, ?_⟩
      rintro after ⟨⟩
      refine ⟨bounded.setPage starts member ?_, rfl, starts⟩
      intro other inserted
      exact List.mem_cons.mp inserted
  · refine ⟨fun _ => by simp, ?_⟩
    rintro after ⟨⟩
    exact ⟨bounded, rfl, starts⟩

/-- A block whose entry keeps its start. -/
theorem Bounded.grown
    {index : Nat}
    {entry : BlockEntry}
    {codeBuffer : StaticList (BitVec 32)}
    {offsetBuffer : StaticList InstructionOffset}
    (bounded : Bounded elf store)
    (bound : index < store.blocks.length)
    (starts : elf.Contains (store.start index))
    (same : entry.x86Start = store.start index) :
    Bounded elf
      { pages := store.pages
        blocks := store.blocks.set index entry
        codeBuffer := codeBuffer
        instructionOffsetBuffer := offsetBuffer } where
  length_pages := bounded.length_pages
  start_contained := by
    intro other occupied
    rw [Occupied, start, block] at *
    by_cases here : other = index
    · subst here
      rw [block_set_self bound, same]
      exact starts
    · rw [block_set_of_ne here] at occupied ⊢
      exact bounded.start_contained other occupied

theorem spillBlock_grown_steps
    {index : Nat}
    {address : BitVec 64}
    {size : BitVec 8}
    {riscvStart offsets : Nat}
    {codeBuffer : StaticList (BitVec 32)}
    {offsetBuffer : StaticList InstructionOffset}
    (bounded : Bounded elf store)
    (bound : index < store.blocks.length)
    (starts : elf.Contains (store.start index))
    (ends : elf.Contains (address + size.setWidth 64)) :
    Steps elf index store (CodeStore.spillBlock elf
      { pages := store.pages
        blocks := store.blocks.set index
          (grownEntry (store.block index) address size riscvStart offsets)
        codeBuffer := codeBuffer
        instructionOffsetBuffer := offsetBuffer } index) := by
  have self := @block_set_self _ _
    (grownEntry (store.block index) address size riscvStart offsets) bound
  have spilled := spillBlock_steps
    (@Bounded.grown elf store index _ codeBuffer offsetBuffer bounded bound
      starts (rfl : (grownEntry (store.block index) address size riscvStart
        offsets).x86Start = _))
    (by rw [start, block, self]; exact starts)
    (by rw [block, self]; exact ends)
  rwa [Steps, List.length_set] at spilled

/-- An instruction of the image that ends in the image is added within the
bounds. -/
theorem addInstruction_steps
    {index : Nat}
    {address : BitVec 64}
    {size : BitVec 8}
    {code : List (BitVec 32)}
    (bounded : Bounded elf store)
    (bound : index < store.blocks.length)
    (inside : elf.Contains address)
    (ends : elf.Contains (address + size.setWidth 64)) :
    Steps elf index store
      (store.addInstruction elf memory index address size code) := by
  obtain ⟨inRange, steps⟩ := @insertBlock_steps _ store index address bounded
    bound inside
  rw [addInstruction]
  cases inserts : store.insertBlock elf index address with
  | error fault =>
      rw [inserts] at inRange
      exact ⟨inRange, by rintro _ ⟨⟩⟩
  | ok inserted =>
      obtain ⟨insertedBounded, length, starts⟩ := steps inserted inserts
      simp only [bind, Except.bind, throw, throwThe, MonadExceptOf.throw]
      split
      · exact ⟨fun _ => by simp, by simp⟩
      · split
        · exact ⟨fun _ => by simp, by simp⟩
        · exact Steps.of_length length (spillBlock_grown_steps insertedBounded
            (length ▸ bound) starts ends)

/-! ## The end of the image -/

/-- There is no page for a block that ends where the image does. -/
theorem spillBlock_ne_ok
    {index : Nat}
    (bounded : Bounded elf store)
    (starts : elf.Contains (store.start index))
    (ends : (store.block index).x86End.toNat =
      elf.base.toNat + elf.size.toNat) :
    store.spillBlock elf index ≠ .ok after := by
  rw [start] at starts
  obtain ⟨startLow, startHigh⟩ := (elf.contains_iff _).mp starts
  have endLow : elf.base.toNat ≤ (store.block index).x86End.toNat := by omega
  have endPage : elf.pageOfNat (store.block index).x86End.toNat =
      elf.pageCount := by
    rw [ends, Elf.pageOfNat, Elf.pageCount, Nat.add_sub_cancel_left]
  have further : (store.block index).x86Start >>> pageShift <
      (store.block index).x86End >>> pageShift := by
    rw [ushiftRight_pageShift_lt_iff startLow endLow, endPage]
    exact Elf.pageOfNat_lt startLow startHigh
  have absent : store.page elf.pageCount =
      .error (.pageOutOfRange elf.pageCount) := by
    rw [page, List.getElem?_eq_none bounded.length_pages.le]
  rw [spillBlock]
  simp only [if_pos further, getPageIndex_eq endLow, endPage, absent, bind,
    Except.bind]
  simp

theorem addInstruction_ne_ok
    {index : Nat}
    {address : BitVec 64}
    {addition : Addition}
    (bounded : Bounded elf store)
    (bound : index < store.blocks.length)
    (inside : elf.Contains address)
    (ends : (address + addition.size.setWidth 64).toNat =
      elf.base.toNat + elf.size.toNat) :
    store.addInstruction elf memory index address addition.size
      addition.code ≠ .ok after := by
  intro added
  obtain ⟨inserted, riscvStart, codeBuffer, offsets, offsetBuffer, inserts, _,
    _, _, _, spilled⟩ := addInstruction_cases added
  obtain ⟨insertedBounded, length, starts⟩ :=
    (insertBlock_steps bounded bound inside).2 inserted inserts
  have self := @block_set_self _ _
    (grownEntry (inserted.block index) address addition.size riscvStart
      offsets) (length ▸ bound : index < inserted.blocks.length)
  refine spillBlock_ne_ok
    (@Bounded.grown elf inserted index _ codeBuffer offsetBuffer
      insertedBounded (length ▸ bound) starts
      (rfl : (grownEntry (inserted.block index) address addition.size
        riscvStart offsets).x86Start = _)) ?_ ?_ spilled
  · rw [start, block, self]
    exact starts
  · rw [block, self]
    exact ends

/-- The instructions of a block that ends where the image does cannot all be
added. -/
theorem addInstructions_ne_ok
    {index : Nat}
    {address : BitVec 64}
    {additions : List Addition}
    (bounded : Bounded elf store)
    (bound : index < store.blocks.length)
    (inside : elf.Contains address)
    (ends : address.toNat + guestLength additions =
      elf.base.toNat + elf.size.toNat) :
    addInstructions elf memory index store address additions ≠ .ok after := by
  induction additions generalizing store address with
  | nil =>
      have high := ((elf.contains_iff address).mp inside).2
      rw [Addition.guestLength_nil] at ends
      omega
  | cons addition rest inductionHypothesis =>
      obtain ⟨low, high⟩ := (elf.contains_iff address).mp inside
      have endLt := elf.end_lt
      rw [Addition.guestLength_cons] at ends
      have following : (address + addition.size.setWidth 64).toNat =
          address.toNat + addition.size.toNat := by
        rw [BitVec.toNat_add, BitVec.toNat_setWidth]
        omega
      intro added
      simp only [addInstructions, bind, Except.bind] at added
      split at added
      · cases added
      · rename_i next addedFirst
        by_cases reaches : address.toNat + addition.size.toNat =
            elf.base.toNat + elf.size.toNat
        · exact addInstruction_ne_ok bounded bound inside
            (following.trans reaches) addedFirst
        · have followingInside :
              elf.Contains (address + addition.size.setWidth 64) := by
            rw [Elf.contains_iff, following]
            omega
          obtain ⟨nextBounded, length, _⟩ := (addInstruction_steps bounded
            bound inside followingInside).2 next addedFirst
          exact inductionHypothesis nextBounded (length ▸ bound)
            followingInside (by rw [following]; omega) added

/-- A store of blocks without overlap is bounded. -/
theorem Holds.bounded
    {blocks : List GuestBlock}
    (held : Holds elf memory store blocks)
    (placed : ∀ block ∈ blocks, block.Placed elf) :
    Bounded elf store where
  length_pages := held.pages.1
  start_contained := by
    have starts {index : Nat} {block : GuestBlock}
        (found : blocks[index]? = some block)
        (nonempty : block.instructions ≠ []) :
        elf.Contains (store.start index) := by
      have blockPlaced := placed block (List.mem_of_getElem? found)
      have extent := blockPlaced.start_lt_stop nonempty
      have low := blockPlaced.start_ge
      have high := blockPlaced.stop_lt
      rw [start, (held.stored index block found).starts nonempty,
        Elf.contains_iff]
      omega
    rintro index (counted | ⟨entries, member, inside⟩)
    · cases found : blocks[index]? with
      | none =>
          have beyond := List.getElem?_eq_none_iff.mp found
          rw [← held.length_blocks] at beyond
          rw [CodeStore.block, List.getD_eq_getElem?_getD,
            List.getElem?_eq_none beyond] at counted
          exact absurd rfl counted
      | some block =>
          refine starts found ?_
          rintro none
          rw [(held.stored index block found).count, none] at counted
          exact counted rfl
    · obtain ⟨page, found⟩ := List.mem_iff_getElem?.mp member
      obtain ⟨block, blockFound, nonempty, _⟩ :=
        ((held.pages.2 page entries found).2 index).mp inside
      exact starts blockFound nonempty

/-- A block of the image that is inserted ends before the image does. -/
theorem insert_placed
    {block : GuestBlock}
    (bounded : Bounded elf store)
    (inImage : block.InImage elf)
    (inserted : insert elf memory store block = .ok after) :
    block.Placed elf := by
  refine ⟨((elf.contains_iff _).mp inImage.contains).1, ?_, inImage.encodable⟩
  by_contra reaches
  have ends : block.start.toNat + guestLength block.instructions =
      elf.base.toNat + elf.size.toNat :=
    Nat.le_antisymm inImage.stop_le (Nat.le_of_not_lt reaches)
  exact addInstructions_ne_ok bounded.createBlock
    (by simp [createBlock] : store.createBlock.1 < _) inImage.contains ends
    inserted

theorem foldlM_insert_placed
    {front rest : List GuestBlock}
    (held : Holds elf memory store front)
    (placed : ∀ block ∈ front, block.Placed elf)
    (contained : ∀ block ∈ rest, block.InImage elf)
    (disjoint : (front ++ rest).Pairwise GuestBlock.Disjoint)
    (inserted : rest.foldlM (insert elf memory) store = .ok after) :
    ∀ block ∈ front ++ rest, block.Placed elf := by
  induction rest generalizing front store with
  | nil => rwa [List.append_nil]
  | cons block rest inductionHypothesis =>
      rw [List.foldlM_cons] at inserted
      simp only [bind, Except.bind] at inserted
      split at inserted
      · cases inserted
      · rename_i next insertedFirst
        have newPlaced := insert_placed (held.bounded placed)
          (contained block List.mem_cons_self) insertedFirst
        rw [List.append_cons front] at disjoint ⊢
        have apart := (List.pairwise_append.mp disjoint).1
        refine inductionHypothesis (insert_holds held placed newPlaced ?_
          insertedFirst) ?_ ?_ disjoint inserted
        · intro other member
          exact (List.pairwise_append.mp apart).2.2 other member block
            (List.mem_singleton_self block)
        · intro other member
          rcases List.mem_append.mp member with old | new
          · exact placed other old
          · exact List.mem_singleton.mp new ▸ newPlaced
        · exact fun other member =>
            contained other (List.mem_cons_of_mem _ member)

/-- Blocks of the image that are inserted end before the image does. -/
theorem insertAll_placed
    {blocks : List GuestBlock}
    (contained : ∀ block ∈ blocks, block.InImage elf)
    (disjoint : blocks.Pairwise GuestBlock.Disjoint)
    (inserted : insertAll elf memory blocks = .ok after) :
    ∀ block ∈ blocks, block.Placed elf :=
  foldlM_insert_placed empty_holds (by simp) contained disjoint inserted

end CodeStore
end Oxtra

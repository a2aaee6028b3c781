import Oxtra.Elf
import Oxtra.Utils

/-!
# The program break

`brk` moves the end of the heap.  The pages of the heap come from the kernel,
which maps them where it is asked to if the pages there are free.
-/

namespace Oxtra
namespace Syscalls

open Utils

/-! ## Pages -/

/-- The pages that are mapped, by the address divided by the page size. -/
abbrev Pages := Nat -> Bool

namespace Pages

def first (address : BitVec 64) : Nat := address.toNat / pageSize

def count (size : BitVec 64) : Nat := (size.toNat + (pageSize - 1)) / pageSize

/-- The page belongs to a range of addresses. -/
def Within (address size : BitVec 64) (page : Nat) : Prop :=
  first address ≤ page ∧ page < first address + count size

instance (address size : BitVec 64) (page : Nat) :
    Decidable (Within address size page) :=
  inferInstanceAs (Decidable (_ ∧ _))

/-- No page of a range is mapped, and the range is one of addresses. -/
def Free (pages : Pages) (address size : BitVec 64) : Prop :=
  first address + count size ≤ 2 ^ 64 / pageSize ∧
    ∀ index < count size, pages (first address + index) = false

instance (pages : Pages) (address size : BitVec 64) :
    Decidable (Free pages address size) :=
  inferInstanceAs (Decidable (_ ∧ _))

def map (pages : Pages) (address size : BitVec 64) : Pages :=
  fun page => if Within address size page then true else pages page

/-- `munmap` -/
def unmap (pages : Pages) (address size : BitVec 64) : Pages :=
  fun page => if Within address size page then false else pages page

end Pages

/-- What `mmap` does when it can not map the pages where it should: it fails,
or finds another place. -/
structure Kernel where
  elsewhere : Pages -> BitVec 64 -> BitVec 64 -> Option (BitVec 64)
  elsewhere_ne {pages : Pages} {hint size other : BitVec 64} :
    elsewhere pages hint size = some other -> other ≠ hint
  elsewhere_free {pages : Pages} {hint size other : BitVec 64} :
    elsewhere pages hint size = some other -> pages.Free other size

/-- The kernel that fails. -/
def Kernel.strict : Kernel where
  elsewhere _ _ _ := none
  elsewhere_ne := by
    intro pages hint size other found
    cases found
  elsewhere_free := by
    intro pages hint size other found
    cases found

/-- `mmap` of anonymous memory with a hint. -/
def Kernel.mmap
    (kernel : Kernel)
    (pages : Pages)
    (hint size : BitVec 64) : Option (BitVec 64 × Pages) :=
  if size ≠ 0 ∧ pages.Free hint size then
    some (hint, pages.map hint size)
  else
    (kernel.elsewhere pages hint size).map fun other =>
      (other, pages.map other size)

/-! ## `brk` -/

/-- The fields of the execution context that `brk` is about, and the pages that
are mapped. -/
structure Heap where
  initialBreak : BitVec 64
  lastBreakPage : BitVec 64
  programBreak : BitVec 64
  pages : Pages

/-- What a call leaves behind: the heap and the value of `rax`. -/
structure BrkResult where
  heap : Heap
  rax : BitVec 64

/-- `brk` with the address in `rdi`. -/
def brk (kernel : Kernel) (context : Heap) (address : BitVec 64) : BrkResult :=
  if address < context.initialBreak then
    ⟨context, context.programBreak⟩
  else if address ≤ context.programBreak then
    let addrPage := pageAlign address
    let context :=
      if addrPage < context.lastBreakPage then
        { context with
          pages := context.pages.unmap addrPage
            (context.lastBreakPage - addrPage)
          lastBreakPage := addrPage }
      else
        context
    ⟨{ context with programBreak := address }, address⟩
  else
    let allocSize := pageAlign (address - context.lastBreakPage)
    match kernel.mmap context.pages context.lastBreakPage allocSize with
    | none => ⟨context, context.programBreak⟩
    | some (mem, pages) =>
        if mem ≠ context.lastBreakPage then
          ⟨{ context with pages := pages.unmap mem allocSize },
            context.programBreak⟩
        else
          ⟨{ context with
              pages := pages
              lastBreakPage := context.lastBreakPage + allocSize
              programBreak := address },
            address⟩

/-- A heap without any page. -/
def Heap.start (initialBreak : BitVec 64) (pages : Pages) : Heap where
  initialBreak := initialBreak
  lastBreakPage := initialBreak
  programBreak := initialBreak
  pages := pages

/-- The heap of a new guest: `init_guest_context` puts it behind the image. -/
def Heap.init (elf : Elf) (pages : Pages) : Heap :=
  Heap.start (elf.base + elf.size) pages

/-- The heap after some calls. -/
def Heap.run (kernel : Kernel) (heap : Heap) (addresses : List (BitVec 64)) :
    Heap :=
  addresses.foldl (fun heap address => (brk kernel heap address).heap) heap

/-! ## What the heap should be -/

/-- The break lies between the initial break and the end of the mapped
pages. -/
structure Heap.Sound (heap : Heap) : Prop where
  initial_le : heap.initialBreak ≤ heap.programBreak
  break_le : heap.programBreak ≤ heap.lastBreakPage
  aligned : heap.lastBreakPage.toNat % pageSize = 0
  mapped : ∀ address : BitVec 64, heap.initialBreak ≤ address ->
    address < heap.programBreak -> heap.pages (Pages.first address) = true

/-- The call moves the break to its address, if this is not below the initial
break. -/
def Moves (heap : Heap) (address : BitVec 64) (result : BrkResult) : Prop :=
  result.rax =
      (if address < heap.initialBreak then heap.programBreak else address) ∧
    result.heap.programBreak = result.rax ∧
      result.heap.initialBreak = heap.initialBreak

/-! ## One call -/

/-- The pages of the heap are the mapped ones behind the initial break. -/
structure Heap.Holds (heap : Heap) : Prop where
  initial_aligned : heap.initialBreak.toNat % pageSize = 0
  aligned : heap.lastBreakPage.toNat % pageSize = 0
  initial_le : heap.initialBreak.toNat ≤ heap.programBreak.toNat
  break_le : heap.programBreak.toNat ≤ heap.lastBreakPage.toNat
  close : heap.lastBreakPage.toNat < heap.programBreak.toNat + pageSize
  mapped : ∀ page, heap.initialBreak.toNat / pageSize ≤ page ->
    (heap.pages page = true ↔ page < heap.lastBreakPage.toNat / pageSize)

theorem Heap.Holds.sound {heap : Heap} (holds : heap.Holds) : heap.Sound := by
  refine ⟨holds.initial_le, holds.break_le, holds.aligned, ?_⟩
  intro address low high
  have aligned := holds.aligned
  have breakLe := holds.break_le
  rw [BitVec.le_def] at low
  rw [BitVec.lt_def] at high
  rw [Pages.first, holds.mapped _ (Nat.div_le_div_right low)]
  simp only [pageSize] at *
  omega

/-- The break can move to the address: to the last page of 32-bit addresses at
most when the heap shrinks, and behind the mapped pages, but not too far, when
it grows. -/
def Reaches (heap : Heap) (address : BitVec 64) : Prop :=
  address < heap.initialBreak ∨
    heap.initialBreak ≤ address ∧ address ≤ heap.programBreak ∧
        address ≤ 0xfffff000 ∨
      heap.programBreak < address ∧ heap.lastBreakPage < address ∧
        address - heap.lastBreakPage ≤ 0xfffff000 ∧
        address.toNat + 0xfff < 2 ^ 64

instance (heap : Heap) (address : BitVec 64) :
    Decidable (Reaches heap address) :=
  inferInstanceAs (Decidable (_ ∨ _))

/-- Pages that are mapped elsewhere are unmapped again. -/
theorem Pages.unmap_map
    {pages : Pages}
    {address size : BitVec 64}
    (free : pages.Free address size) :
    (pages.map address size).unmap address size = pages := by
  funext page
  unfold unmap map
  by_cases within : Within address size page
  · have unmapped := free.2 (page - first address) (by
      have bounds := within
      unfold Within at bounds
      omega)
    rw [Nat.add_sub_cancel' within.1] at unmapped
    rw [if_pos within, unmapped]
  · rw [if_neg within, if_neg within]

theorem notBelow_of_le
    {address limit : BitVec 64}
    (le : limit ≤ address) :
    ¬ address < limit := by
  rw [BitVec.lt_def]
  rw [BitVec.le_def] at le
  omega

/-- What a call does that gives memory back. -/
theorem brk_shrink
    (kernel : Kernel)
    {heap : Heap}
    {address : BitVec 64}
    (above : heap.initialBreak ≤ address)
    (inside : address ≤ heap.programBreak) :
    let addrPage := pageAlign address
    brk kernel heap address =
      ⟨{ heap with
          programBreak := address
          lastBreakPage :=
            if addrPage < heap.lastBreakPage then
              addrPage
            else
              heap.lastBreakPage
          pages :=
            if addrPage < heap.lastBreakPage then
              heap.pages.unmap addrPage (heap.lastBreakPage - addrPage)
            else
              heap.pages },
        address⟩ := by
  unfold brk
  rw [if_neg (notBelow_of_le above), if_pos inside]
  dsimp only
  split <;> rfl

/-- What a call does that asks for more memory. -/
theorem brk_grow
    (kernel : Kernel)
    {heap : Heap}
    {address : BitVec 64}
    (above : heap.initialBreak ≤ address)
    (grows : heap.programBreak < address) :
    let allocSize := pageAlign (address - heap.lastBreakPage)
    if allocSize ≠ 0 ∧ heap.pages.Free heap.lastBreakPage allocSize then
      brk kernel heap address =
        ⟨{ heap with
            pages := heap.pages.map heap.lastBreakPage allocSize
            lastBreakPage := heap.lastBreakPage + allocSize
            programBreak := address },
          address⟩
    else
      brk kernel heap address = ⟨heap, heap.programBreak⟩ := by
  intro allocSize
  have notInside : ¬ address ≤ heap.programBreak := by
    rw [BitVec.le_def]
    rw [BitVec.lt_def] at grows
    omega
  unfold brk Kernel.mmap
  rw [if_neg (notBelow_of_le above), if_neg notInside]
  by_cases free : allocSize ≠ 0 ∧ heap.pages.Free heap.lastBreakPage allocSize
  · rw [if_pos free]
    simp only [allocSize] at free
    simp only [if_pos free, ne_eq, not_true_eq_false, if_false]
    rfl
  · rw [if_neg free]
    simp only [allocSize] at free
    simp only [if_neg free]
    cases found : kernel.elsewhere heap.pages heap.lastBreakPage
        (pageAlign (address - heap.lastBreakPage)) with
    | none => rfl
    | some other =>
        have different := kernel.elsewhere_ne found
        simp only [Option.map_some, ne_eq, different, not_false_eq_true,
          if_true, Pages.unmap_map (kernel.elsewhere_free found)]

/-- The size of an allocation that is not too long, in pages. -/
theorem allocSize_of_small
    {heap : Heap}
    {address : BitVec 64}
    (above : heap.lastBreakPage < address)
    (near : address - heap.lastBreakPage ≤ 0xfffff000) :
    let allocSize := pageAlign (address - heap.lastBreakPage)
    allocSize.toNat % pageSize = 0 ∧
      address.toNat ≤ heap.lastBreakPage.toNat + allocSize.toNat ∧
        heap.lastBreakPage.toNat + allocSize.toNat <
          address.toNat + pageSize := by
  intro allocSize
  have aligned := pageAlign_aligned (address - heap.lastBreakPage)
  have rounded := pageAlign_of_small near
  rw [BitVec.lt_def] at above
  have difference : (address - heap.lastBreakPage).toNat =
      address.toNat - heap.lastBreakPage.toNat :=
    BitVec.toNat_sub_of_le (Nat.le_of_lt above)
  simp only [allocSize, pageSize]
  omega

/-- A call with an address that the break can move to. -/
theorem brk_of_reaches
    (kernel : Kernel)
    {heap : Heap}
    {address : BitVec 64}
    (holds : heap.Holds)
    (reaches : Reaches heap address) :
    (brk kernel heap address).heap.Holds ∧
      Moves heap address (brk kernel heap address) := by
  rcases reaches with below | ⟨above, inside, small⟩ |
    ⟨further, behind, near, fits⟩
  · unfold brk Moves
    rw [if_pos below, if_pos below]
    exact ⟨holds, rfl, rfl, rfl⟩
  · have rounded := pageAlign_of_small small
    have roundedAligned := pageAlign_aligned address
    have initialAligned := holds.initial_aligned
    have aligned := holds.aligned
    have breakLe := holds.break_le
    have close := holds.close
    rw [brk_shrink kernel above inside, Moves,
      if_neg (notBelow_of_le above)]
    rw [BitVec.le_def] at above inside
    refine ⟨?_, rfl, rfl, rfl⟩
    dsimp only
    by_cases frees : pageAlign address < heap.lastBreakPage
    · rw [if_pos frees, if_pos frees]
      rw [BitVec.lt_def] at frees
      refine ⟨initialAligned, roundedAligned, above, rounded.1, rounded.2, ?_⟩
      intro page behind
      have was := holds.mapped page behind
      have size : (heap.lastBreakPage - pageAlign address).toNat =
          heap.lastBreakPage.toNat - (pageAlign address).toNat :=
        BitVec.toNat_sub_of_le (Nat.le_of_lt frees)
      simp only [Pages.unmap, Pages.Within, Pages.first, Pages.count, size,
        pageSize] at *
      split
      · simp only [Bool.false_eq_true, false_iff]
        omega
      · rw [was]
        omega
    · rw [if_neg frees, if_neg frees]
      rw [BitVec.lt_def] at frees
      refine ⟨initialAligned, aligned, above,
        show address.toNat ≤ heap.lastBreakPage.toNat by omega, ?_,
        holds.mapped⟩
      show heap.lastBreakPage.toNat < address.toNat + 0x1000
      omega
  · have initialLe := holds.initial_le
    have above : heap.initialBreak ≤ address := by
      rw [BitVec.lt_def] at further
      rw [BitVec.le_def]
      omega
    obtain ⟨sizeAligned, reachesSize, closeSize⟩ :=
      allocSize_of_small behind near
    have aligned := holds.aligned
    have initialAligned := holds.initial_aligned
    have breakLe := holds.break_le
    have grows := brk_grow kernel above further
    simp only at grows
    generalize pageAlign (address - heap.lastBreakPage) = allocSize at *
    rw [BitVec.lt_def] at further behind
    simp only [pageSize] at *
    have noWrap : (heap.lastBreakPage + allocSize).toNat =
        heap.lastBreakPage.toNat + allocSize.toNat := by
      rw [BitVec.toNat_add]
      omega
    have nonzero : allocSize ≠ 0 := by
      rintro rfl
      simp at reachesSize
      omega
    have free : heap.pages.Free heap.lastBreakPage allocSize := by
      simp only [Pages.Free, Pages.first, Pages.count, pageSize]
      refine ⟨by omega, ?_⟩
      intro index inside
      rw [Bool.eq_false_iff, Ne, holds.mapped _ (by simp only [pageSize]; omega)]
      simp only [pageSize]
      omega
    rw [if_pos ⟨nonzero, free⟩] at grows
    rw [grows]
    refine ⟨⟨initialAligned, ?_, ?_, ?_, ?_, ?_⟩, ?_⟩
    · rw [noWrap]
      simp only [pageSize]
      omega
    · exact above
    · rw [noWrap]
      exact reachesSize
    · rw [noWrap]
      exact closeSize
    · intro page behind
      have was := holds.mapped page behind
      show heap.pages.map heap.lastBreakPage allocSize page = true ↔
        page < (heap.lastBreakPage + allocSize).toNat / 0x1000
      rw [noWrap]
      by_cases within : Pages.Within heap.lastBreakPage allocSize page
      · rw [Pages.map, if_pos within, eq_self, true_iff]
        simp only [Pages.Within, Pages.first, Pages.count, pageSize] at within
        omega
      · rw [Pages.map, if_neg within, was]
        simp only [Pages.Within, Pages.first, Pages.count, pageSize] at within ⊢
        omega
    · rw [Moves, if_neg (notBelow_of_le above)]
      exact ⟨rfl, rfl, rfl⟩

/-- There is nothing to allocate behind an address in the last page. -/
theorem allocSize_of_inside
    {heap : Heap}
    {address : BitVec 64}
    (holds : heap.Holds)
    (grows : heap.programBreak < address)
    (inside : address ≤ heap.lastBreakPage) :
    pageAlign (address - heap.lastBreakPage) = 0 := by
  have close := holds.close
  have lastLt := heap.lastBreakPage.isLt
  rw [BitVec.lt_def] at grows
  rw [BitVec.le_def] at inside
  apply BitVec.eq_of_toNat_eq
  rw [pageAlign_toNat, BitVec.toNat_sub]
  simp only [pageSize, BitVec.ofNat_eq_ofNat, BitVec.toNat_ofNat] at *
  omega

/-- The break moves to no other address. -/
theorem reaches_of_brk
    (kernel : Kernel)
    {heap : Heap}
    {address : BitVec 64}
    (holds : heap.Holds)
    (sound : (brk kernel heap address).heap.Sound)
    (moves : Moves heap address (brk kernel heap address)) :
    Reaches heap address := by
  by_cases below : address < heap.initialBreak
  · exact Or.inl below
  have above : heap.initialBreak ≤ address := by
    rw [BitVec.lt_def] at below
    rw [BitVec.le_def]
    omega
  have breakLe := holds.break_le
  by_cases inside : address ≤ heap.programBreak
  · refine Or.inr (Or.inl ⟨above, inside, ?_⟩)
    by_contra large
    have rounded := pageAlign_le address
    have after := sound.break_le
    rw [brk_shrink kernel above inside] at after
    rw [BitVec.le_def] at large inside
    have small : (0xfffff000 : BitVec 64).toNat = 0xfffff000 := rfl
    rw [small] at large
    have frees : pageAlign address < heap.lastBreakPage := by
      rw [BitVec.lt_def]
      omega
    simp only [if_pos frees] at after
    rw [BitVec.le_def] at after
    omega
  · have grows : heap.programBreak < address := by
      rw [BitVec.le_def] at inside
      rw [BitVec.lt_def]
      omega
    refine Or.inr (Or.inr ⟨grows, ?_⟩)
    have grown := brk_grow kernel above grows
    simp only at grown
    have notStill : ¬ brk kernel heap address =
        ⟨heap, heap.programBreak⟩ := by
      intro still
      have value := moves.1
      rw [still, if_neg below] at value
      rw [BitVec.lt_def, ← value] at grows
      exact Nat.lt_irrefl _ grows
    split at grown
    · rename_i free
      have after : address.toNat ≤ (heap.lastBreakPage +
          pageAlign (address - heap.lastBreakPage)).toNat := by
        have breakLe := sound.break_le
        rwa [grown] at breakLe
      have behind : heap.lastBreakPage < address := by
        by_contra notBehind
        rw [BitVec.lt_def] at notBehind
        exact free.1 (allocSize_of_inside holds grows (by
          rw [BitVec.le_def]
          omega))
      have difference : (address - heap.lastBreakPage).toNat =
          address.toNat - heap.lastBreakPage.toNat :=
        BitVec.toNat_sub_of_le (Nat.le_of_lt behind)
      have addressLt := address.isLt
      have small : (0xfffff000 : BitVec 64).toNat = 0xfffff000 := rfl
      have rounded := pageAlign_le (address - heap.lastBreakPage)
      rw [BitVec.toNat_add] at after
      have near : address - heap.lastBreakPage ≤ 0xfffff000 := by
        by_contra far
        rw [BitVec.le_def, small] at far
        rw [BitVec.lt_def] at behind
        omega
      refine ⟨behind, near, ?_⟩
      obtain ⟨sizeAligned, _, closeSize⟩ := allocSize_of_small behind near
      have aligned := holds.aligned
      simp only [pageSize] at *
      rw [BitVec.lt_def] at grows
      by_contra wraps
      omega
    · exact absurd grown notStill

/-! ## Runs -/

theorem Heap.holds_start
    {initialBreak : BitVec 64}
    {pages : Pages}
    (aligned : initialBreak.toNat % pageSize = 0)
    (free : ∀ page, initialBreak.toNat / pageSize ≤ page ->
      pages page = false) :
    (Heap.start initialBreak pages).Holds := by
  refine ⟨aligned, aligned, Nat.le_refl _, Nat.le_refl _, ?_, ?_⟩
  · exact Nat.lt_add_of_pos_right (by decide)
  · intro page behind
    have here : initialBreak.toNat / pageSize ≤ page := behind
    simp only [Heap.start, free page here, Bool.false_eq_true, false_iff]
    omega

/-- Every call of a run could move the break to its address. -/
def Heap.AllReach
    (kernel : Kernel)
    (heap : Heap) : List (BitVec 64) -> Prop
  | [] => True
  | address :: rest =>
      Reaches heap address ∧ AllReach kernel (brk kernel heap address).heap rest

theorem Heap.run_holds
    {kernel : Kernel}
    {heap : Heap}
    {addresses : List (BitVec 64)}
    (holds : heap.Holds)
    (reach : heap.AllReach kernel addresses) :
    (heap.run kernel addresses).Holds := by
  induction addresses generalizing heap with
  | nil => exact holds
  | cons address rest inductionHypothesis =>
      obtain ⟨reaches, reachRest⟩ := reach
      exact inductionHypothesis (brk_of_reaches kernel holds reaches).1 reachRest

/-- After calls that could all move the break, the heap is sound, and another
call leaves a sound heap and returns what it should if and only if it can move
the break as well. -/
theorem Heap.run_brk_iff
    (kernel : Kernel)
    {initialBreak : BitVec 64}
    {pages : Pages}
    {addresses : List (BitVec 64)}
    (aligned : initialBreak.toNat % pageSize = 0)
    (free : ∀ page, initialBreak.toNat / pageSize ≤ page ->
      pages page = false)
    (reach : (Heap.start initialBreak pages).AllReach kernel addresses) :
    let heap := (Heap.start initialBreak pages).run kernel addresses
    heap.Sound ∧ ∀ address,
      (brk kernel heap address).heap.Sound ∧
          Moves heap address (brk kernel heap address) ↔
        Reaches heap address := by
  intro heap
  have holds := Heap.run_holds (Heap.holds_start aligned free) reach
  refine ⟨holds.sound, ?_⟩
  intro address
  constructor
  · rintro ⟨sound, moves⟩
    exact reaches_of_brk kernel holds sound moves
  · intro reaches
    obtain ⟨after, moves⟩ := brk_of_reaches kernel holds reaches
    exact ⟨after.sound, moves⟩

/-- The break behind an image is page aligned. -/
theorem Heap.init_aligned (elf : Elf) :
    (elf.base + elf.size).toNat % pageSize = 0 := by
  have baseAligned := elf.base_aligned
  have sizeAligned := elf.size_aligned
  simp only [pageSize, BitVec.toNat_add] at *
  omega

/-- A heap behind an image that grows by two pages and gives one back. -/
theorem Heap.run_brk_iff_sample :
    let heap := (Heap.init (Elf.ofPages 1 (fun _ => 0xc3) (by decide))
      fun _ => false).run Kernel.strict [0, 0x401010, 0x403000, 0x402000]
    heap.Sound ∧ ∀ address,
      (brk Kernel.strict heap address).heap.Sound ∧
          Moves heap address (brk Kernel.strict heap address) ↔
        Reaches heap address :=
  Heap.run_brk_iff Kernel.strict (Heap.init_aligned _) (fun _ _ => rfl)
    ⟨by decide +kernel, by decide +kernel, by decide +kernel,
      by decide +kernel, trivial⟩

/-- The break does not move within its last page. -/
theorem Heap.run_brk_stays :
    let heap := (Heap.init (Elf.ofPages 1 (fun _ => 0xc3) (by decide))
      fun _ => false).run Kernel.strict [0x401010]
    heap.initialBreak ≤ 0x401020 ∧
      ¬ Moves heap 0x401020 (brk Kernel.strict heap 0x401020) := by
  intro heap
  refine ⟨by decide +kernel, ?_⟩
  intro moves
  have stays : (brk Kernel.strict heap 0x401020).rax = 0x401010 := by
    decide +kernel
  have value := moves.1
  rw [stays] at value
  exact absurd value (by decide +kernel)

end Syscalls
end Oxtra

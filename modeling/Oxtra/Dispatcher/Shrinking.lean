import Oxtra.Dispatcher.Brk

/-!
# Giving memory back

A call of `brk` that does not raise the break gives the whole pages behind its
address back.  The image and the rest of the heap keep theirs.
-/

namespace Oxtra
namespace Syscalls

open Utils

/-! ## The range that is unmapped -/

/-- The range that a call which does not raise the break passes to `munmap`. -/
def Heap.unmapped (heap : Heap) (address : BitVec 64) :
    Option (BitVec 64 × BitVec 64) :=
  let addrPage := pageAlign address
  if addrPage < heap.lastBreakPage then
    some (addrPage, heap.lastBreakPage - addrPage)
  else
    none

/-- The mapped pages after `munmap`, if it is called. -/
def Pages.freed (pages : Pages) : Option (BitVec 64 × BitVec 64) -> Pages
  | some (address, size) => pages.unmap address size
  | none => pages

/-- The first page boundary that is not below an address. -/
def pageCeil (address : Nat) : Nat :=
  (address + (pageSize - 1)) / pageSize * pageSize

/-- The byte lies in a range of addresses. -/
def InRange (start size byte : BitVec 64) : Prop :=
  start.toNat ≤ byte.toNat ∧ byte.toNat < start.toNat + size.toNat

/-- The call unmaps the whole pages between its address and the end of the
mapped pages.  The image and the rest of the heap are not touched, and the
break stays in front of the end of the mapped pages. -/
structure FreesBehind
    (kernel : Kernel)
    (elf : Elf)
    (heap : Heap)
    (address : BitVec 64) : Prop where
  range : ∀ start size, heap.unmapped address = some (start, size) ↔
    pageCeil address.toNat < heap.lastBreakPage.toNat ∧
      start.toNat = pageCeil address.toNat ∧
      start.toNat + size.toNat = heap.lastBreakPage.toNat
  unmaps : (brk kernel heap address).heap.pages =
    heap.pages.freed (heap.unmapped address)
  above : ∀ start size, heap.unmapped address = some (start, size) ->
    address ≤ start
  keeps : ∀ start size, heap.unmapped address = some (start, size) ->
    ∀ byte, InRange start size byte ->
      ¬ elf.Contains byte ∧
        ¬ (heap.initialBreak ≤ byte ∧
          byte < (brk kernel heap address).heap.programBreak)
  frontier : (brk kernel heap address).heap.programBreak ≤
    (brk kernel heap address).heap.lastBreakPage

theorem pageAlign_eq_pageCeil
    {address : BitVec 64}
    (small : address ≤ 0xfffff000) :
    (pageAlign address).toNat = pageCeil address.toNat := by
  have rounded := pageAlign_of_small small
  have aligned := pageAlign_aligned address
  simp only [pageCeil, pageSize]
  omega

theorem unmapped_eq_some_iff
    {heap : Heap}
    {address start size : BitVec 64} :
    heap.unmapped address = some (start, size) ↔
      pageAlign address < heap.lastBreakPage ∧ start = pageAlign address ∧
        start.toNat + size.toNat = heap.lastBreakPage.toNat := by
  unfold Heap.unmapped
  by_cases frees : pageAlign address < heap.lastBreakPage
  · have difference : (heap.lastBreakPage - pageAlign address).toNat =
        heap.lastBreakPage.toNat - (pageAlign address).toNat :=
      BitVec.toNat_sub_of_le (BitVec.le_of_lt frees)
    have less : (pageAlign address).toNat < heap.lastBreakPage.toNat := frees
    rw [if_pos frees, Option.some.injEq, Prod.mk.injEq]
    constructor
    · rintro ⟨rfl, rfl⟩
      exact ⟨frees, rfl, by omega⟩
    · rintro ⟨_, rfl, total⟩
      refine ⟨rfl, ?_⟩
      apply BitVec.eq_of_toNat_eq
      omega
  · simp [frees]

/-! ## One call -/

/-- The break is in the last of the mapped pages of the heap, or at their
end. -/
structure Heap.Framed (elf : Elf) (heap : Heap) : Prop where
  initial : heap.initialBreak = elf.base + elf.size
  aligned : heap.lastBreakPage.toNat % pageSize = 0
  initial_le : heap.initialBreak.toNat ≤ heap.programBreak.toNat
  break_le : heap.programBreak.toNat ≤ heap.lastBreakPage.toNat
  close : heap.lastBreakPage.toNat < heap.programBreak.toNat + pageSize

/-- `mmap` finds the pages behind the heap free. -/
def Allocates (heap : Heap) (address : BitVec 64) : Prop :=
  let allocSize := pageAlign (address - heap.lastBreakPage)
  allocSize ≠ 0 ∧ heap.pages.Free heap.lastBreakPage allocSize

instance (heap : Heap) (address : BitVec 64) :
    Decidable (Allocates heap address) :=
  inferInstanceAs (Decidable (_ ∧ _))

/-- What the call rounds up to a page has no more than 32 bits, unless there is
nothing to allocate. -/
def Rounds (heap : Heap) (address : BitVec 64) : Prop :=
  address < heap.initialBreak ∨
    heap.initialBreak ≤ address ∧ address ≤ heap.programBreak ∧
        address ≤ 0xfffff000 ∨
      heap.programBreak < address ∧
        (Allocates heap address ->
          heap.lastBreakPage < address ∧
            address - heap.lastBreakPage ≤ 0xfffff000 ∧
            address.toNat + 0xfff < 2 ^ 64)

instance (heap : Heap) (address : BitVec 64) :
    Decidable (Rounds heap address) :=
  inferInstanceAs (Decidable (_ ∨ _))

section Call

variable {kernel : Kernel} {elf : Elf} {heap : Heap} {address : BitVec 64}

theorem Heap.Framed.shrink
    (framed : heap.Framed elf)
    (above : heap.initialBreak ≤ address)
    (inside : address ≤ heap.programBreak)
    (small : address ≤ 0xfffff000) :
    (brk kernel heap address).heap.Framed elf := by
  obtain ⟨initial, aligned, initialLe, breakLe, close⟩ := framed
  have rounded := pageAlign_of_small small
  have roundedAligned := pageAlign_aligned address
  rw [brk_shrink kernel above inside]
  have insideLe : address.toNat ≤ heap.programBreak.toNat := inside
  by_cases frees : pageAlign address < heap.lastBreakPage
  · simp only [if_pos frees]
    exact ⟨initial, roundedAligned, above, rounded.1, rounded.2⟩
  · have notLess : ¬ (pageAlign address).toNat < heap.lastBreakPage.toNat :=
      frees
    simp only [if_neg frees]
    refine ⟨initial, aligned, above, insideLe.trans breakLe, ?_⟩
    exact (Nat.le_of_not_lt notLess).trans_lt rounded.2

theorem Heap.Framed.grow
    (framed : heap.Framed elf)
    (grows : heap.programBreak < address)
    (rounds : Allocates heap address ->
      heap.lastBreakPage < address ∧
        address - heap.lastBreakPage ≤ 0xfffff000 ∧
        address.toNat + 0xfff < 2 ^ 64) :
    (brk kernel heap address).heap.Framed elf := by
  have growsNat : heap.programBreak.toNat < address.toNat := grows
  have above : heap.initialBreak ≤ address :=
    framed.initial_le.trans growsNat.le
  have grown := brk_grow kernel above grows
  simp only at grown
  by_cases allocates : Allocates heap address
  · obtain ⟨behind, near, fits⟩ := rounds allocates
    obtain ⟨sizeAligned, reaches, closeSize⟩ := allocSize_of_small behind near
    rw [if_pos (show _ ∧ _ from allocates)] at grown
    have aligned := framed.aligned
    simp only [pageSize] at *
    have noWrap : (heap.lastBreakPage +
        pageAlign (address - heap.lastBreakPage)).toNat =
          heap.lastBreakPage.toNat +
            (pageAlign (address - heap.lastBreakPage)).toNat := by
      rw [BitVec.toNat_add]
      omega
    rw [grown]
    refine ⟨framed.initial, ?_, above, ?_, ?_⟩
    · rw [noWrap, pageSize]
      omega
    · rw [noWrap]
      exact reaches
    · rw [noWrap]
      exact closeSize
  · rw [if_neg (show ¬ (_ ∧ _) from allocates)] at grown
    rw [grown]
    exact framed

/-- A call whose sizes are rounded up keeps the break in the last page. -/
theorem Heap.Framed.brk
    (framed : heap.Framed elf)
    (rounds : Rounds heap address) :
    (Syscalls.brk kernel heap address).heap.Framed elf := by
  rcases rounds with below | ⟨above, inside, small⟩ | ⟨grows, rounds⟩
  · unfold Syscalls.brk
    rw [if_pos below]
    exact framed
  · exact framed.shrink above inside small
  · exact framed.grow grows rounds

/-- The pages behind the address are given back if and only if the address is
rounded up. -/
theorem Heap.Framed.freesBehind_iff
    (framed : heap.Framed elf)
    (above : heap.initialBreak ≤ address)
    (inside : address ≤ heap.programBreak) :
    FreesBehind kernel elf heap address ↔ address ≤ 0xfffff000 := by
  have insideNat : address.toNat ≤ heap.programBreak.toNat := inside
  have breakLe := framed.break_le
  constructor
  · intro frees
    by_contra large
    have largeNat : ¬ address.toNat ≤ 0xfffff000 := large
    have truncated := pageAlign_le address
    have less : pageAlign address < heap.lastBreakPage := by
      rw [BitVec.lt_def]
      omega
    have below : address.toNat ≤ (pageAlign address).toNat :=
      frees.above _ (heap.lastBreakPage - pageAlign address) (if_pos less)
    omega
  · intro small
    have ceil := pageAlign_eq_pageCeil small
    have rounded := (pageAlign_of_small small).1
    have kept := @Heap.Framed.shrink kernel elf heap address framed above inside
      small
    have shrinks := brk_shrink kernel above inside
    refine ⟨?_, ?_, ?_, ?_, kept.break_le⟩
    · intro start size
      rw [unmapped_eq_some_iff, ← BitVec.toNat_inj, ceil, BitVec.lt_def, ceil]
    · rw [shrinks, Heap.unmapped]
      by_cases frees : pageAlign address < heap.lastBreakPage
      · simp only [if_pos frees, Pages.freed]
      · simp only [if_neg frees, Pages.freed]
    · intro start size unmapped
      obtain ⟨_, rfl, _⟩ := unmapped_eq_some_iff.mp unmapped
      exact rounded
    · intro start size unmapped byte inRange
      obtain ⟨_, rfl, _⟩ := unmapped_eq_some_iff.mp unmapped
      have behind : address.toNat ≤ byte.toNat := rounded.trans inRange.1
      constructor
      · intro contained
        have high := ((elf.contains_iff byte).mp contained).2
        have endLt := elf.end_lt
        have aboveNat : heap.initialBreak.toNat ≤ address.toNat := above
        rw [framed.initial, BitVec.toNat_add] at aboveNat
        omega
      · rintro ⟨_, before⟩
        rw [shrinks] at before
        exact absurd before (BitVec.not_lt.mpr behind)

end Call

/-! ## Runs -/

/-- The heap after some calls.  The pages that are mapped in front of each call
are given with it, as others map and unmap pages between the calls. -/
def Heap.runAmong
    (kernel : Kernel)
    (heap : Heap)
    (calls : List (Pages × BitVec 64)) : Heap :=
  calls.foldl
    (fun heap call => (brk kernel { heap with pages := call.1 } call.2).heap)
    heap

/-- Every call of a run rounds its sizes up. -/
def Heap.AllRound
    (kernel : Kernel)
    (heap : Heap) : List (Pages × BitVec 64) -> Prop
  | [] => True
  | call :: rest =>
      Rounds { heap with pages := call.1 } call.2 ∧
        AllRound kernel (brk kernel { heap with pages := call.1 } call.2).heap
          rest

theorem Heap.framed_init (elf : Elf) (pages : Pages) :
    (Heap.init elf pages).Framed elf where
  initial := rfl
  aligned := Heap.init_aligned elf
  initial_le := Nat.le_refl _
  break_le := Nat.le_refl _
  close := Nat.lt_add_of_pos_right (by decide)

theorem Heap.runAmong_framed
    {kernel : Kernel}
    {elf : Elf}
    {heap : Heap}
    {calls : List (Pages × BitVec 64)}
    (framed : heap.Framed elf)
    (rounds : heap.AllRound kernel calls) :
    (heap.runAmong kernel calls).Framed elf := by
  induction calls generalizing heap with
  | nil => exact framed
  | cons call rest inductionHypothesis =>
      obtain ⟨roundsHere, roundsRest⟩ := rounds
      have before : Heap.Framed elf { heap with pages := call.1 } :=
        { framed with }
      exact inductionHypothesis (before.brk roundsHere) roundsRest

/-- In a run whose calls round their sizes up, a call that does not raise the
break gives the pages behind its address back if and only if the address is
rounded up. -/
theorem Heap.runAmong_freesBehind_iff
    (kernel : Kernel)
    (elf : Elf)
    {pages : Pages}
    {calls : List (Pages × BitVec 64)}
    (rounds : (Heap.init elf pages).AllRound kernel calls)
    (mapped : Pages)
    {address : BitVec 64} :
    let heap := { (Heap.init elf pages).runAmong kernel calls with
      pages := mapped }
    heap.initialBreak ≤ address -> address ≤ heap.programBreak ->
      (FreesBehind kernel elf heap address ↔ address ≤ 0xfffff000) := by
  intro heap above inside
  have framed : heap.Framed elf :=
    { Heap.runAmong_framed (Heap.framed_init elf pages) rounds with }
  exact framed.freesBehind_iff above inside

/-- The heap grows by two pages, and one of them is given back. -/
theorem Heap.runAmong_freesBehind_iff_sample :
    let elf := Elf.ofPages 1 (fun _ => 0xc3) (by decide)
    let heap := { (Heap.init elf fun _ => false).runAmong Kernel.strict
      [(fun _ => false, 0x403000)] with pages := fun _ => true }
    FreesBehind Kernel.strict elf heap 0x402000 ↔
      (0x402000 : BitVec 64) ≤ 0xfffff000 :=
  @Heap.runAmong_freesBehind_iff Kernel.strict
    (Elf.ofPages 1 (fun _ => 0xc3) (by decide)) (fun _ => false)
    [(fun _ => false, 0x403000)] ⟨by decide +kernel, trivial⟩ (fun _ => true)
    0x402000 (by decide +kernel) (by decide +kernel)

/-- One call that makes a small heap end at 0x100003000. -/
theorem brk_grows
    {heap : Heap}
    (initial : heap.initialBreak = 0x401000)
    (last : heap.lastBreakPage = 0x401000)
    (breaks : heap.programBreak = 0x401000)
    (free : heap.pages = fun _ => false) :
    (brk Kernel.strict heap 0x100003000).heap.initialBreak = 0x401000 ∧
      (brk Kernel.strict heap 0x100003000).heap.programBreak = 0x100003000 ∧
      (brk Kernel.strict heap 0x100003000).heap.lastBreakPage =
        0x100003000 := by
  have grows := @brk_grow Kernel.strict heap 0x100003000
    (by rw [initial]; decide) (by rw [breaks]; decide)
  rw [last, free, if_pos ⟨by decide, by decide, fun _ _ => rfl⟩] at grows
  have ends : 0x401000 + pageAlign (0x100003000 - 0x401000) = 0x100003000 := by
    decide
  rw [grows]
  exact ⟨initial, rfl, ends⟩

theorem Heap.runAmong_single
    (kernel : Kernel)
    (heap : Heap)
    (pages : Pages)
    (address : BitVec 64) :
    heap.runAmong kernel [(pages, address)] =
      (brk kernel { heap with pages := pages } address).heap := by
  rw [Heap.runAmong, List.foldl_cons, List.foldl_nil]

/-- The heap of an image that has grown past the addresses of 32 bits. -/
def grownHeap (elf : Elf) : Heap :=
  (Heap.init elf fun _ => false).runAmong Kernel.strict
    [(fun _ => false, 0x100003000)]

theorem grownHeap_breaks :
    let heap := grownHeap (Elf.ofPages 1 (fun _ => 0xc3) (by decide))
    heap.initialBreak = 0x401000 ∧ heap.programBreak = 0x100003000 ∧
      heap.lastBreakPage = 0x100003000 := by
  rw [grownHeap, Heap.runAmong_single]
  exact brk_grows (by decide +kernel) (by decide +kernel) (by decide +kernel)
    rfl

theorem grownHeap_unmapped :
    (grownHeap (Elf.ofPages 1 (fun _ => 0xc3) (by decide))).unmapped
        0x100002000 =
      some (0x2000, 0x100001000) := by
  unfold Heap.unmapped
  rw [grownHeap_breaks.2.2]
  decide +kernel

/-- The image is given back with one page of the heap. -/
theorem Heap.runAmong_freesImage :
    let elf := Elf.ofPages 1 (fun _ => 0xc3) (by decide)
    let heap := grownHeap elf
    heap.initialBreak = 0x401000 ∧ heap.programBreak = 0x100003000 ∧
      heap.unmapped 0x100002000 = some (0x2000, 0x100001000) ∧
      elf.Contains 0x400000 ∧ InRange 0x2000 0x100001000 (0x400000 : BitVec 64) ∧
      ¬ FreesBehind Kernel.strict elf heap 0x100002000 := by
  obtain ⟨initial, breaks, -⟩ := grownHeap_breaks
  refine ⟨initial, breaks, grownHeap_unmapped, by decide +kernel,
    ⟨by decide, by decide⟩, fun frees => ?_⟩
  have below := frees.above 0x2000 0x100001000 grownHeap_unmapped
  exact absurd below (by decide)

end Syscalls
end Oxtra

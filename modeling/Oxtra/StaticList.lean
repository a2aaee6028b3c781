import Mathlib.Algebra.Group.Nat.Defs
import Mathlib.Data.List.Basic

/-!
# Buffers that are filled front to back

A `StaticList` hands out consecutive storage from a region of a fixed number
of elements, and moves the section that is being filled to a new region when
the current one is full.  Pointers count elements, and the null pointer is
zero; the regions that successive allocations return are given.
-/

namespace Oxtra

/-- The regions that allocations of `maxElements` elements return, in order.
Regions are disjoint, not null, and within the host's address space. -/
structure Allocator (maxElements : Nat) where
  region : Nat -> Option Nat
  region_pos {index start : Nat} : region index = some start -> 0 < start
  region_end {index start : Nat} :
    region index = some start -> start + maxElements < 2 ^ 62
  disjoint {first second start other : Nat} :
    first ≠ second -> region first = some start ->
      region second = some other ->
        start + maxElements ≤ other ∨ other + maxElements ≤ start

namespace Allocator

/-- Regions one behind the other, as long as they fit. -/
def consecutive (maxElements : Nat) : Allocator maxElements where
  region index :=
    let start := 1 + index * maxElements
    if start + maxElements < 2 ^ 62 then some start else none
  region_pos := by
    intro index start found
    simp only [Option.ite_none_right_eq_some, Option.some.injEq] at found
    omega
  region_end := by
    intro index start found
    simp only [Option.ite_none_right_eq_some, Option.some.injEq] at found
    obtain ⟨bound, rfl⟩ := found
    exact bound
  disjoint := by
    intro first second start other different firstFound secondFound
    simp only [Option.ite_none_right_eq_some, Option.some.injEq] at *
    obtain ⟨_, rfl⟩ := firstFound
    obtain ⟨_, rfl⟩ := secondFound
    rcases Nat.lt_or_gt_of_ne different with less | less
    · left
      have scaled := Nat.mul_le_mul_right maxElements (Nat.succ_le_of_lt less)
      rw [Nat.succ_mul] at scaled
      omega
    · right
      have scaled := Nat.mul_le_mul_right maxElements (Nat.succ_le_of_lt less)
      rw [Nat.succ_mul] at scaled
      omega

end Allocator

/-- The state of a list, with the contents of all of its regions. -/
structure StaticList (T : Type) where
  buffer : Nat := 0
  sizeLeft : Nat := 0
  /-- Number of allocations so far. -/
  allocations : Nat := 0
  cells : Nat -> T

namespace StaticList

variable {T : Type}

/-- Difference of two pointers as a `size_t`. -/
def pointerDistance (start stop : Nat) : Nat :=
  if start ≤ stop then stop - start else 2 ^ 64 - (start - stop)

/-- `std::copy(elements, elements + num_elements, _buffer)` with the update of
the buffer pointer. -/
def write (list : StaticList T) (elements : List T) : StaticList T where
  buffer := list.buffer + elements.length
  sizeLeft := list.sizeLeft - elements.length
  allocations := list.allocations
  cells pointer :=
    if list.buffer ≤ pointer then
      elements.getD (pointer - list.buffer) (list.cells pointer)
    else
      list.cells pointer

/-- `reallocate`, and the adoption of the new region by `add`. -/
def moveTo
    (maxElements : Nat)
    (list : StaticList T)
    (start storeCount region : Nat) : StaticList T where
  buffer := region + storeCount
  sizeLeft := maxElements - storeCount
  allocations := list.allocations + 1
  cells pointer :=
    if region ≤ pointer ∧ pointer < region + storeCount then
      list.cells (start + (pointer - region))
    else
      list.cells pointer

/-- `add`: the new start of the section, or zero if the elements could not be
added. -/
def add
    {maxElements : Nat}
    (allocator : Allocator maxElements)
    (list : StaticList T)
    (start : Nat)
    (elements : List T) : Nat × StaticList T :=
  let storeCount := if start = 0 then 0 else pointerDistance start list.buffer
  if (elements.length + storeCount) % 2 ^ 64 > maxElements then
    (0, list)
  else
    let actualStart := if storeCount > 0 then start else list.buffer
    if list.sizeLeft < elements.length then
      match allocator.region list.allocations with
      | none => (0, list)
      | some region =>
          (region, (list.moveTo maxElements start storeCount region).write
            elements)
    else
      (actualStart, list.write elements)

/-! ## What a list has stored -/

section Stored

variable {maxElements : Nat} (allocator : Allocator maxElements)

/-- Either nothing has been allocated, or the free elements are the last ones
of an allocated region. -/
def WellFormed (list : StaticList T) : Prop :=
  list.allocations = 0 ∧ list.buffer = 0 ∧ list.sizeLeft = 0 ∨
    ∃ index region, index < list.allocations ∧
      allocator.region index = some region ∧ region ≤ list.buffer ∧
        list.buffer + list.sizeLeft = region + maxElements

/-- The pointer lies in an allocated region, and not in its free elements. -/
def Used (list : StaticList T) (pointer : Nat) : Prop :=
  ∃ index region, index < list.allocations ∧
    allocator.region index = some region ∧ region ≤ pointer ∧
      pointer < region + maxElements ∧
        (pointer < list.buffer ∨ list.buffer + list.sizeLeft ≤ pointer)

/-- The elements lie one behind the other from `start` on. -/
def Stores (list : StaticList T) (start : Nat) (elements : List T) : Prop :=
  ∀ index element, elements[index]? = some element ->
    Used allocator list (start + index) ∧
      list.cells (start + index) = element

/-- The section is the one that is being filled: it is not started yet, or
the free elements follow it. -/
def Ends (list : StaticList T) (start : Nat) (elements : List T) : Prop :=
  start = 0 ∧ elements = [] ∨
    start ≠ 0 ∧ Stores allocator list start elements ∧
      start + elements.length = list.buffer

/-- Nothing that is stored in one list is changed in the other. -/
def Extends (before after : StaticList T) : Prop :=
  ∀ pointer, Used allocator before pointer ->
    Used allocator after pointer ∧ after.cells pointer = before.cells pointer

variable {allocator} {list before after : StaticList T}

theorem Stores.nil (start : Nat) : Stores allocator list start [] := by
  intro index element found
  simp at found

theorem Stores.of_extends
    {start : Nat}
    {elements : List T}
    (stored : Stores allocator before start elements)
    (kept : Extends allocator before after) :
    Stores allocator after start elements := by
  intro index element found
  obtain ⟨used, content⟩ := stored index element found
  obtain ⟨stillUsed, same⟩ := kept _ used
  exact ⟨stillUsed, same.trans content⟩

theorem Stores.append_left
    {start : Nat}
    {first second : List T}
    (stored : Stores allocator list start (first ++ second)) :
    Stores allocator list start first := by
  intro index element found
  have bound := (List.getElem?_eq_some_iff.mp found).1
  exact stored index element (by rwa [List.getElem?_append_left bound])

theorem Stores.append_right
    {start : Nat}
    {first second : List T}
    (stored : Stores allocator list start (first ++ second)) :
    Stores allocator list (start + first.length) second := by
  intro index element found
  have whole := stored (first.length + index) element
    (by rwa [List.getElem?_append_right (by omega), Nat.add_sub_cancel_left])
  rwa [← Nat.add_assoc] at whole

theorem Stores.append
    {start : Nat}
    {first second : List T}
    (firstStored : Stores allocator list start first)
    (secondStored : Stores allocator list (start + first.length) second) :
    Stores allocator list start (first ++ second) := by
  intro index element found
  rcases Nat.lt_or_ge index first.length with less | notLess
  · exact firstStored index element
      (by rwa [List.getElem?_append_left less] at found)
  · rw [List.getElem?_append_right notLess] at found
    have stored := secondStored _ element found
    rwa [Nat.add_assoc, Nat.add_sub_cancel' notLess] at stored

theorem Extends.refl : Extends allocator list list :=
  fun _ used => ⟨used, rfl⟩

theorem Extends.trans
    {last : StaticList T}
    (first : Extends allocator before after)
    (second : Extends allocator after last) :
    Extends allocator before last := by
  intro pointer used
  obtain ⟨usedAfter, sameAfter⟩ := first pointer used
  obtain ⟨usedLast, sameLast⟩ := second pointer usedAfter
  exact ⟨usedLast, sameLast.trans sameAfter⟩

/-- The pointers of a list are far below the top of the address space. -/
theorem WellFormed.buffer_lt
    (wellFormed : WellFormed allocator list) :
    list.buffer < 2 ^ 62 := by
  rcases wellFormed with ⟨_, zero, _⟩ | ⟨index, region, _, found, _, _⟩
  · omega
  · have bound := allocator.region_end found
    omega

/-! ## The two steps of `add` -/

/-- A write into the free elements. -/
theorem write_wellFormed
    {elements : List T}
    (wellFormed : WellFormed allocator list)
    (fits : elements.length ≤ list.sizeLeft) :
    WellFormed allocator (list.write elements) := by
  rcases wellFormed with
    ⟨none, zero, full⟩ | ⟨index, region, less, found, low, high⟩
  · exact Or.inl ⟨none, by simp only [write]; omega,
      by simp only [write]; omega⟩
  · exact Or.inr ⟨index, region, less, found, by simp only [write]; omega,
      by simp only [write]; omega⟩

theorem write_extends
    {elements : List T}
    (fits : elements.length ≤ list.sizeLeft) :
    Extends allocator list (list.write elements) := by
  rintro pointer ⟨index, region, less, found, low, high, taken⟩
  refine ⟨⟨index, region, less, found, low, high, ?_⟩, ?_⟩
  · simp only [write]
    omega
  · simp only [write]
    split
    · rw [List.getD_eq_getElem?_getD, List.getElem?_eq_none (by omega)]
      rfl
    · rfl

/-- What was written lies behind what was stored before. -/
theorem write_stores
    {elements : List T}
    (wellFormed : WellFormed allocator list)
    (fits : elements.length ≤ list.sizeLeft) :
    Stores allocator (list.write elements) list.buffer elements := by
  intro position element stored
  have bound := (List.getElem?_eq_some_iff.mp stored).1
  rcases wellFormed with
    ⟨none, zero, full⟩ | ⟨index, region, less, found, low, high⟩
  · omega
  · refine ⟨⟨index, region, less, found, by omega, by omega, ?_⟩, ?_⟩
    · simp only [write]
      omega
    · simp [write, List.getD_eq_getElem?_getD, stored]

/-- The move of a section into a new region. -/
theorem moveTo_wellFormed
    {start storeCount region : Nat}
    (found : allocator.region list.allocations = some region)
    (fits : storeCount ≤ maxElements) :
    WellFormed allocator (list.moveTo maxElements start storeCount region) :=
  Or.inr ⟨list.allocations, region, by simp [moveTo], found,
    by simp only [moveTo]; omega, by simp only [moveTo]; omega⟩

theorem moveTo_extends
    {start storeCount region : Nat}
    (found : allocator.region list.allocations = some region)
    (fits : storeCount ≤ maxElements) :
    Extends allocator list
      (list.moveTo maxElements start storeCount region) := by
  rintro pointer ⟨index, other, less, otherFound, low, high, _⟩
  have apart := allocator.disjoint (by omega) otherFound found
  refine ⟨⟨index, other, Nat.lt_succ_of_lt less, otherFound, low, high, ?_⟩, ?_⟩
  · simp only [moveTo]
    omega
  · simp only [moveTo]
    rw [if_neg (by omega)]

theorem moveTo_stores
    {start region : Nat}
    {elements : List T}
    (found : allocator.region list.allocations = some region)
    (fits : elements.length ≤ maxElements)
    (stored : Stores allocator list start elements) :
    Stores allocator (list.moveTo maxElements start elements.length region)
      region elements := by
  intro position element atPosition
  have bound := (List.getElem?_eq_some_iff.mp atPosition).1
  refine ⟨⟨list.allocations, region, by simp [moveTo], found, by omega,
    by omega, Or.inl ?_⟩, ?_⟩
  · simp only [moveTo]
    omega
  · simp only [moveTo]
    rw [if_pos (by omega), Nat.add_sub_cancel_left]
    exact (stored position element atPosition).2

/-! ## The specification of `add` -/

/-- A section that ends at the free elements is stored. -/
theorem Ends.stores
    {start : Nat}
    {elements : List T}
    (current : Ends allocator list start elements) :
    Stores allocator list start elements := by
  rcases current with ⟨_, rfl⟩ | ⟨_, stored, _⟩
  · exact Stores.nil start
  · exact stored

/-- The number of elements that `add` finds in the section. -/
theorem Ends.storeCount
    {start : Nat}
    {elements : List T}
    (current : Ends allocator list start elements) :
    (if start = 0 then 0 else pointerDistance start list.buffer) =
      elements.length := by
  rcases current with ⟨rfl, rfl⟩ | ⟨notNull, _, stop⟩
  · rfl
  · rw [if_neg notNull, pointerDistance, if_pos (by omega)]
    omega

/-- What `add` can do: fail because the section would be too long or because
there is no memory, move the section, or go on where it ends. -/
theorem add_cases
    {start : Nat}
    {elements newElements : List T}
    (wellFormed : WellFormed allocator list)
    (current : Ends allocator list start elements)
    (few : newElements.length < 2 ^ 62) :
    maxElements < elements.length + newElements.length ∧
        list.add allocator start newElements = (0, list) ∨
      elements.length + newElements.length ≤ maxElements ∧
        (list.sizeLeft < newElements.length ∧
            allocator.region list.allocations = none ∧
            list.add allocator start newElements = (0, list) ∨
          (∃ region, list.sizeLeft < newElements.length ∧
            allocator.region list.allocations = some region ∧
            list.add allocator start newElements =
              (region, (list.moveTo maxElements start elements.length
                region).write newElements)) ∨
          newElements.length ≤ list.sizeLeft ∧
            list.add allocator start newElements =
              (list.buffer - elements.length, list.write newElements)) := by
  have bufferLt := wellFormed.buffer_lt
  have countLe : elements.length ≤ list.buffer := by
    rcases current with ⟨_, rfl⟩ | ⟨_, _, stop⟩
    · exact Nat.zero_le _
    · omega
  have actualStart : (if elements.length > 0 then start else list.buffer) =
      list.buffer - elements.length := by
    rcases current with ⟨_, rfl⟩ | ⟨_, _, stop⟩
    · rfl
    · split <;> omega
  unfold add
  simp only [current.storeCount, actualStart]
  rw [Nat.mod_eq_of_lt (by omega)]
  by_cases long : newElements.length + elements.length > maxElements
  · exact Or.inl ⟨by omega, if_pos long⟩
  · rw [if_neg long]
    refine Or.inr ⟨by omega, ?_⟩
    by_cases full : list.sizeLeft < newElements.length
    · rw [if_pos full]
      cases found : allocator.region list.allocations with
      | none => exact Or.inl ⟨full, rfl, rfl⟩
      | some region => exact Or.inr (Or.inl ⟨region, full, rfl, rfl⟩)
    · rw [if_neg full]
      exact Or.inr (Or.inr ⟨by omega, rfl⟩)

/-- Elements that are added follow those of the section, wherever this is
afterwards, and nothing else that is stored changes. -/
theorem add_spec
    {start added : Nat}
    {elements newElements : List T}
    (wellFormed : WellFormed allocator list)
    (current : Ends allocator list start elements)
    (few : newElements.length < 2 ^ 62)
    (result : list.add allocator start newElements = (added, after))
    (succeeds : added ≠ 0) :
    WellFormed allocator after ∧ Extends allocator list after ∧
      Ends allocator after added (elements ++ newElements) := by
  have stored := current.stores
  rcases add_cases wellFormed current few with
    ⟨_, fails⟩ | ⟨short, ⟨_, _, fails⟩ | ⟨region, _, found, moves⟩ |
      ⟨room, goesOn⟩⟩
  · exact absurd (congrArg Prod.fst (result.symm.trans fails)) succeeds
  · exact absurd (congrArg Prod.fst (result.symm.trans fails)) succeeds
  · obtain ⟨rfl, rfl⟩ := Prod.mk.inj (moves.symm.trans result)
    have fits : elements.length ≤ maxElements := by omega
    have moved := @moveTo_wellFormed _ _ _ list start _ _ found fits
    have room : newElements.length ≤
        (list.moveTo maxElements start elements.length region).sizeLeft := by
      simp only [moveTo]
      omega
    refine ⟨write_wellFormed moved room,
      (moveTo_extends found fits).trans (write_extends room),
      Or.inr ⟨succeeds, ?_, ?_⟩⟩
    · exact ((moveTo_stores found fits stored).of_extends
        (write_extends room)).append (write_stores moved room)
    · simp [write, moveTo, Nat.add_assoc]
  · obtain ⟨addedEq, rfl⟩ := Prod.mk.inj (goesOn.symm.trans result)
    have stop : added + elements.length = list.buffer := by omega
    have storedAt : Stores allocator list added elements := by
      rcases current with ⟨_, rfl⟩ | ⟨_, stored, followed⟩
      · exact Stores.nil added
      · rwa [show added = start by omega]
    refine ⟨write_wellFormed wellFormed room, write_extends room,
      Or.inr ⟨succeeds, ?_, ?_⟩⟩
    · exact (storedAt.of_extends (write_extends room)).append
        (stop ▸ write_stores wellFormed room)
    · simp only [write, List.length_append]
      omega

/-- A section that grows does not reach into what else is stored. -/
theorem add_avoids
    {start added : Nat}
    {elements newElements : List T}
    {taken : Nat -> Prop}
    (wellFormed : WellFormed allocator list)
    (current : Ends allocator list start elements)
    (few : newElements.length < 2 ^ 62)
    (used : ∀ pointer, taken pointer -> Used allocator list pointer)
    (avoids : ∀ index < elements.length, ¬ taken (start + index))
    (result : list.add allocator start newElements = (added, after))
    (succeeds : added ≠ 0) :
    ∀ index < (elements ++ newElements).length, ¬ taken (added + index) := by
  intro index inside isTaken
  rw [List.length_append] at inside
  obtain ⟨earlier, other, less, otherFound, low, high, outside⟩ :=
    used _ isTaken
  rcases add_cases wellFormed current few with
    ⟨_, fails⟩ | ⟨short, ⟨_, _, fails⟩ | ⟨region, _, found, moves⟩ |
      ⟨room, goesOn⟩⟩
  · exact absurd (congrArg Prod.fst (result.symm.trans fails)) succeeds
  · exact absurd (congrArg Prod.fst (result.symm.trans fails)) succeeds
  · obtain ⟨rfl, rfl⟩ := Prod.mk.inj (moves.symm.trans result)
    have apart := allocator.disjoint (by omega) otherFound found
    omega
  · obtain ⟨rfl, rfl⟩ := Prod.mk.inj (goesOn.symm.trans result)
    by_cases old : index < elements.length
    · rcases current with ⟨_, rfl⟩ | ⟨_, _, stop⟩
      · exact absurd old (Nat.not_lt_zero _)
      · refine avoids index old ?_
        rwa [← stop, Nat.add_sub_cancel] at isTaken
    · rcases current with ⟨_, rfl⟩ | ⟨_, _, stop⟩
      · rw [List.length_nil] at outside inside
        omega
      · omega

/-- A new section may start at any time. -/
theorem Ends.new : Ends allocator list 0 [] :=
  Or.inl ⟨rfl, rfl⟩

theorem Ends.length_lt
    {start : Nat}
    {elements : List T}
    (wellFormed : WellFormed allocator list)
    (current : Ends allocator list start elements) :
    start + elements.length < 2 ^ 62 := by
  have bufferLt := wellFormed.buffer_lt
  rcases current with ⟨rfl, rfl⟩ | ⟨_, _, stop⟩
  · simp
  · omega

end Stored

end StaticList
end Oxtra

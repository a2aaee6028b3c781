import Mathlib.Data.List.Induction
import Mathlib.Tactic.IntervalCases
import Oxtra.StaticList

/-!
# Sections of a list

The callers of `add` build one section after the other: a call starts a new
section or extends the one that was returned last.  Over any sequence of calls
the sections stay where they are, one element behind the other.
-/

namespace Oxtra
namespace StaticList

variable {T : Type}

/-! ## Calls -/

/-- A call of `add`.  The array of its elements lies in the address space. -/
structure AddCall (T : Type) where
  isNew : Bool
  elements : List T
  fits : elements.length < 2 ^ 62

/-- A list and its sections: the start and the elements of the section that was
returned last, and of all sections before. -/
structure Session (T : Type) where
  list : StaticList T
  start : Nat := 0
  contents : List T := []
  finished : List (Nat × List T) := []

namespace Session

/-- The sections, the last one first. -/
def sections (session : Session T) : List (Nat × List T) :=
  (session.start, session.contents) :: session.finished

/-- The start of the section that a call extends. -/
def startFor (session : Session T) (call : AddCall T) : Nat :=
  if call.isNew then 0 else session.start

/-- The elements of the section that a call extends. -/
def contentsFor (session : Session T) (call : AddCall T) : List T :=
  if call.isNew then [] else session.contents

/-- The section that a call returns, and what becomes of the list and of its
sections. -/
def call
    {maxElements : Nat}
    (allocator : Allocator maxElements)
    (session : Session T)
    (call : AddCall T) : Nat × Session T :=
  let (result, list) :=
    session.list.add allocator (session.startFor call) call.elements
  if result = 0 then
    (result, { session with list := list })
  else
    (result,
      { list := list
        start := result
        contents := session.contentsFor call ++ call.elements
        finished :=
          if call.isNew then session.sections else session.finished })

/-- Some calls, one after the other, on a list without any elements. -/
def run
    {maxElements : Nat}
    (allocator : Allocator maxElements)
    (cells : Nat -> T)
    (calls : List (AddCall T)) : Session T :=
  calls.foldl (fun session next => (session.call allocator next).2)
    { list := { cells := cells } }

end Session

/-- The pointers that `add` writes to: those of the section that it moves, and
those of the new elements. -/
def Writes
    {maxElements : Nat}
    (allocator : Allocator maxElements)
    (list : StaticList T)
    (start : Nat)
    (elements : List T)
    (pointer : Nat) : Prop :=
  let storeCount := if start = 0 then 0 else pointerDistance start list.buffer
  (elements.length + storeCount) % 2 ^ 64 ≤ maxElements ∧
    if list.sizeLeft < elements.length then
      ∃ region, allocator.region list.allocations = some region ∧
        region ≤ pointer ∧ pointer < region + storeCount + elements.length
    else
      list.buffer ≤ pointer ∧ pointer < list.buffer + elements.length

/-- A call does what it promises: it fails exactly if the section becomes too
long, what it returns is the section with the new elements, no section is
changed, and all writes stay inside of the regions. -/
structure ExactCall
    {maxElements : Nat}
    (allocator : Allocator maxElements)
    (session : Session T)
    (call : AddCall T) : Prop where
  null_iff : (session.call allocator call).1 = 0 ↔
    maxElements < (session.contentsFor call).length + call.elements.length
  section_stored : (session.call allocator call).1 ≠ 0 ->
    Stores allocator (session.call allocator call).2.list
      (session.call allocator call).1
      (session.contentsFor call ++ call.elements)
  sections_kept : ∀ section_ ∈ session.sections,
    Stores allocator (session.call allocator call).2.list section_.1 section_.2
  cells_kept : ∀ pointer,
    ¬ Writes allocator session.list (session.startFor call) call.elements
      pointer ->
    (session.call allocator call).2.list.cells pointer =
      session.list.cells pointer
  writes_inside : ∀ pointer,
    Writes allocator session.list (session.startFor call) call.elements
      pointer ->
    ∃ index region, index < (session.call allocator call).2.list.allocations ∧
      allocator.region index = some region ∧
        region ≤ pointer ∧ pointer < region + maxElements

/-! ## The invariant of the sections -/

section Exact

variable
  {maxElements : Nat}
  {allocator : Allocator maxElements}

/-- All sections are stored, and the free elements follow the last one. -/
structure Session.Holds
    (allocator : Allocator maxElements)
    (session : Session T) : Prop where
  wellFormed : WellFormed allocator session.list
  current : Ends allocator session.list session.start session.contents
  stored : ∀ section_ ∈ session.finished,
    Stores allocator session.list section_.1 section_.2

theorem Session.Holds.section_stored
    {session : Session T}
    (holds : session.Holds allocator) :
    ∀ section_ ∈ session.sections,
      Stores allocator session.list section_.1 section_.2 := by
  intro section_ member
  rcases List.mem_cons.mp member with rfl | earlier
  · exact holds.current.stores
  · exact holds.stored section_ earlier

/-- The section that a call extends ends at the free elements. -/
theorem Session.Holds.ends
    {session : Session T}
    (holds : session.Holds allocator)
    (call : AddCall T) :
    Ends allocator session.list (session.startFor call)
      (session.contentsFor call) := by
  unfold startFor contentsFor
  split
  · exact Ends.new
  · exact holds.current

theorem Session.holds_empty (cells : Nat -> T) :
    Session.Holds allocator { list := { cells := cells } } :=
  ⟨Or.inl ⟨rfl, rfl, rfl⟩, Ends.new, by simp⟩

/-- Nothing has been allocated exactly if the buffer is null, and then there
is no room. -/
theorem WellFormed.buffer_eq_zero_iff
    {list : StaticList T}
    (wellFormed : WellFormed allocator list) :
    (list.buffer = 0 ↔ list.allocations = 0) ∧
      (list.allocations = 0 -> list.sizeLeft = 0) := by
  rcases wellFormed with ⟨none, null, full⟩ | ⟨_, region, less, found, low, _⟩
  · exact ⟨by omega, fun _ => full⟩
  · have positive := allocator.region_pos found
    exact ⟨by omega, by omega⟩

/-- An addition that returns null changes nothing.  It returns null if the
section would be too long, and for no elements before the first allocation. -/
theorem add_null
    {list : StaticList T}
    {start : Nat}
    {contents elements : List T}
    (wellFormed : WellFormed allocator list)
    (current : Ends allocator list start contents)
    (few : elements.length < 2 ^ 62)
    (allocates : (allocator.region list.allocations).isSome = true) :
    ((list.add allocator start elements).1 = 0 ↔
      maxElements < contents.length + elements.length ∨
        elements = [] ∧ list.allocations = 0) ∧
      ((list.add allocator start elements).1 = 0 ->
        WellFormed allocator (list.add allocator start elements).2 ∧
          Extends allocator list (list.add allocator start elements).2 ∧
            (list.add allocator start elements).2.buffer = list.buffer) := by
  obtain ⟨null, noRoom⟩ := wellFormed.buffer_eq_zero_iff
  rcases add_cases wellFormed current few with
    ⟨long, fails⟩ | ⟨short, ⟨_, none, _⟩ | ⟨region, full, found, moves⟩ |
      ⟨room, goesOn⟩⟩
  · rw [fails]
    exact ⟨by simp [long], fun _ => ⟨wellFormed, Extends.refl, rfl⟩⟩
  · rw [none] at allocates
    cases allocates
  · have positive := allocator.region_pos found
    rw [moves]
    have some : elements ≠ [] := by
      rintro rfl
      simp at full
    exact ⟨by simp [some]; omega, by omega⟩
  · rw [goesOn]
    have zero : list.buffer - contents.length = 0 ↔
        elements = [] ∧ list.allocations = 0 := by
      rw [← List.length_eq_zero_iff]
      rcases current with ⟨_, rfl⟩ | ⟨_, _, stop⟩
      · simp only [List.length_nil] at *
        omega
      · have inBuffer : list.buffer ≠ 0 := by omega
        omega
    refine ⟨?_, ?_⟩
    · rw [zero]
      exact ⟨Or.inr, fun either => either.resolve_left (by omega)⟩
    · intro isNull
      obtain ⟨rfl, _⟩ := zero.mp isNull
      exact ⟨write_wellFormed wellFormed room, write_extends room, rfl⟩

/-- The cells that an addition does not write to stay as they are. -/
theorem add_cells_of_not_writes
    {list : StaticList T}
    {start pointer : Nat}
    {contents elements : List T}
    (wellFormed : WellFormed allocator list)
    (current : Ends allocator list start contents)
    (few : elements.length < 2 ^ 62)
    (outside : ¬ Writes allocator list start elements pointer) :
    (list.add allocator start elements).2.cells pointer =
      list.cells pointer := by
  have bufferLt := wellFormed.buffer_lt
  have lengthLt := current.length_lt wellFormed
  have written : ∀ before : StaticList T,
      (before.write elements).cells pointer ≠ before.cells pointer ->
        before.buffer ≤ pointer ∧
          pointer < before.buffer + elements.length := by
    intro before changed
    by_contra apart
    apply changed
    simp only [write]
    split
    · rw [List.getD_eq_getElem?_getD, List.getElem?_eq_none (by omega)]
      rfl
    · rfl
  by_contra changed
  apply outside
  unfold Writes
  simp only [current.storeCount]
  rw [Nat.mod_eq_of_lt (by omega)]
  rcases add_cases wellFormed current few with
    ⟨_, fails⟩ | ⟨short, ⟨_, _, fails⟩ | ⟨region, full, found, moves⟩ |
      ⟨room, goesOn⟩⟩
  · rw [fails] at changed
    exact absurd rfl changed
  · rw [fails] at changed
    exact absurd rfl changed
  · rw [moves] at changed
    refine ⟨by omega, ?_⟩
    rw [if_pos full]
    refine ⟨region, found, ?_⟩
    by_cases copied : region ≤ pointer ∧ pointer < region + contents.length
    · omega
    · have new := written _ fun same => changed
        (same.trans (by simp only [moveTo]; rw [if_neg copied]))
      simp only [moveTo] at new
      omega
  · rw [goesOn] at changed
    refine ⟨by omega, ?_⟩
    rw [if_neg (by omega)]
    exact written list changed

/-- An addition writes into allocated regions. -/
theorem add_writes_inside
    {list : StaticList T}
    {start pointer : Nat}
    {contents elements : List T}
    (wellFormed : WellFormed allocator list)
    (current : Ends allocator list start contents)
    (few : elements.length < 2 ^ 62)
    (writes : Writes allocator list start elements pointer) :
    ∃ index region,
      index < (list.add allocator start elements).2.allocations ∧
        allocator.region index = some region ∧
          region ≤ pointer ∧ pointer < region + maxElements := by
  have lengthLt := current.length_lt wellFormed
  unfold Writes at writes
  simp only [current.storeCount] at writes
  rw [Nat.mod_eq_of_lt (by omega)] at writes
  obtain ⟨short, place⟩ := writes
  rcases add_cases wellFormed current few with
    ⟨long, _⟩ | ⟨_, ⟨full, none, _⟩ | ⟨region, full, found, moves⟩ |
      ⟨room, goesOn⟩⟩
  · omega
  · rw [if_pos full, none] at place
    obtain ⟨_, found, _⟩ := place
    cases found
  · rw [if_pos full] at place
    obtain ⟨other, otherFound, low, high⟩ := place
    obtain rfl : region = other :=
      Option.some.inj (found.symm.trans otherFound)
    rw [moves]
    exact ⟨list.allocations, region, Nat.lt_succ_self _, found, low, by omega⟩
  · rw [if_neg (by omega)] at place
    rw [goesOn]
    rcases wellFormed with
      ⟨_, _, noRoom⟩ | ⟨index, region, less, found, low, high⟩
    · omega
    · exact ⟨index, region, less, found, by omega, by omega⟩

theorem add_allocations_le
    {list : StaticList T}
    {start : Nat}
    {contents elements : List T}
    (wellFormed : WellFormed allocator list)
    (current : Ends allocator list start contents)
    (few : elements.length < 2 ^ 62) :
    (list.add allocator start elements).2.allocations ≤
      list.allocations + 1 := by
  rcases add_cases wellFormed current few with
    ⟨_, adds⟩ | ⟨_, ⟨_, _, adds⟩ | ⟨_, _, _, adds⟩ | ⟨_, adds⟩⟩
  all_goals
    rw [adds]
    simp [write, moveTo]

/-! ## Runs -/

theorem Session.call_fst (session : Session T) (call : AddCall T) :
    (session.call allocator call).1 =
      (session.list.add allocator (session.startFor call) call.elements).1 := by
  unfold Session.call
  generalize session.list.add allocator (session.startFor call)
    call.elements = added
  dsimp only
  split <;> rfl

theorem Session.call_list (session : Session T) (call : AddCall T) :
    (session.call allocator call).2.list =
      (session.list.add allocator (session.startFor call) call.elements).2 := by
  unfold Session.call
  generalize session.list.add allocator (session.startFor call)
    call.elements = added
  dsimp only
  split <;> rfl

/-- A call keeps the invariant, and what is stored stays stored. -/
theorem Session.Holds.call
    {session : Session T}
    (holds : session.Holds allocator)
    (call : AddCall T)
    (allocates : (allocator.region session.list.allocations).isSome = true) :
    (session.call allocator call).2.Holds allocator ∧
      Extends allocator session.list (session.call allocator call).2.list := by
  have ends := holds.ends call
  obtain ⟨-, unchanged⟩ := add_null holds.wellFormed ends call.fits allocates
  unfold Session.call
  split
  rename_i result after adds
  simp only [adds] at unchanged
  split
  · rename_i isNull
    obtain ⟨wellFormed, extends_, buffer⟩ := unchanged isNull
    refine ⟨⟨wellFormed, ?_, ?_⟩, extends_⟩
    · rcases holds.current with empty | ⟨notNull, stored, stop⟩
      · exact Or.inl empty
      · exact Or.inr ⟨notNull, stored.of_extends extends_, by rw [buffer, stop]⟩
    · intro section_ member
      exact (holds.stored section_ member).of_extends extends_
  · rename_i notNull
    obtain ⟨wellFormed, extends_, current⟩ :=
      add_spec holds.wellFormed ends call.fits adds notNull
    refine ⟨⟨wellFormed, current, ?_⟩, extends_⟩
    intro section_ member
    refine (holds.section_stored section_ ?_).of_extends extends_
    simp only at member
    split at member
    · exact member
    · exact List.mem_cons_of_mem _ member

theorem Session.Holds.call_allocations
    {session : Session T}
    (holds : session.Holds allocator)
    (call : AddCall T) :
    (session.call allocator call).2.list.allocations ≤
      session.list.allocations + 1 := by
  rw [session.call_list call]
  exact add_allocations_le holds.wellFormed (holds.ends call) call.fits

/-- After any calls the invariant holds. -/
theorem Session.run_holds
    (cells : Nat -> T)
    {calls : List (AddCall T)}
    (allocates : ∀ index < calls.length,
      (allocator.region index).isSome = true) :
    (Session.run allocator cells calls).Holds allocator ∧
      (Session.run allocator cells calls).list.allocations ≤ calls.length := by
  induction calls using List.reverseRecOn with
  | nil => exact ⟨Session.holds_empty cells, Nat.le_refl 0⟩
  | append_singleton calls last inductionHypothesis =>
      rw [List.length_append, List.length_singleton] at *
      obtain ⟨holds, few⟩ :=
        inductionHypothesis fun index less => allocates index (by omega)
      have called := holds.call last (allocates _ (by omega))
      have fewMore := holds.call_allocations last
      rw [Session.run, List.foldl_append]
      exact ⟨called.1, Nat.le_trans fewMore (by omega)⟩

/-- Every call of a run does what it promises if and only if it adds some
element, or memory has been allocated before. -/
theorem Session.run_exact_iff
    (cells : Nat -> T)
    (calls : List (AddCall T))
    (call : AddCall T)
    (allocates : ∀ index ≤ calls.length,
      (allocator.region index).isSome = true) :
    ExactCall allocator (Session.run allocator cells calls) call ↔
      call.elements ≠ [] ∨
        (Session.run allocator cells calls).list.allocations ≠ 0 := by
  obtain ⟨holds, few⟩ := @Session.run_holds _ _ allocator cells calls
    fun index less => allocates index (Nat.le_of_lt less)
  generalize Session.run allocator cells calls = session at *
  have memory := allocates _ few
  have ends := holds.ends call
  obtain ⟨null, -⟩ := add_null holds.wellFormed ends call.fits memory
  obtain ⟨after, kept⟩ := holds.call call memory
  have result := @Session.call_fst _ _ allocator session call
  have list := @Session.call_list _ _ allocator session call
  constructor
  · intro exact_
    by_contra neither
    push Not at neither
    have isNull := exact_.null_iff.mp (by
      rw [result, null]
      exact Or.inr neither)
    have noContents := holds.wellFormed.buffer_eq_zero_iff.1.mpr neither.2
    rcases ends with ⟨_, empty⟩ | ⟨_, _, stop⟩
    · rw [empty, neither.1] at isNull
      simp at isNull
    · omega
  · intro fine
    refine ⟨?_, ?_, ?_, ?_, ?_⟩
    · rw [result, null]
      refine ⟨fun either => either.resolve_right ?_, Or.inl⟩
      rintro ⟨none, unallocated⟩
      exact fine.elim (· none) (· unallocated)
    · intro notNull
      have current := after.current.stores
      rw [list]
      rw [result] at notNull ⊢
      generalize adds : session.list.add allocator (session.startFor call)
        call.elements = added at *
      exact (add_spec holds.wellFormed ends call.fits adds notNull).2.2.stores
    · intro section_ member
      exact (holds.section_stored section_ member).of_extends kept
    · intro pointer outside
      rw [list]
      exact add_cells_of_not_writes holds.wellFormed ends call.fits outside
    · intro pointer writes
      rw [list]
      exact add_writes_inside holds.wellFormed ends call.fits writes

/-- A section of two elements that is extended by a third one, which does not
fit into the region. -/
theorem Session.run_exact_iff_moved :
    ExactCall (Allocator.consecutive 3)
      (Session.run (Allocator.consecutive 3) (fun _ => (0 : Nat))
        [⟨true, [10, 11], by decide⟩, ⟨true, [12], by decide⟩])
      ⟨false, [13], by decide⟩ :=
  (Session.run_exact_iff _ _ _ (by
    intro index less
    have : index ≤ 2 := less
    interval_cases index <;> rfl)).mpr (Or.inl (by decide))

/-- The first call adds no elements, and returns null although the section
would not be too long. -/
theorem Session.run_inexact_empty :
    ¬ ExactCall (Allocator.consecutive 16)
      (Session.run (Allocator.consecutive 16) (fun _ => (0 : Nat)) [])
      ⟨true, [], by decide⟩ := by
  intro exact_
  have long := exact_.null_iff.mp rfl
  exact absurd long (by decide)

end Exact

end StaticList
end Oxtra

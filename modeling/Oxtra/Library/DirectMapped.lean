import Mathlib.Logic.Function.Basic

/-!
# Direct-mapped caches

Every key has one slot.  A cache starts with arbitrary entries, which no
computation made; an insertion replaces the entry of the slot.
-/

namespace Oxtra
namespace DirectMapped

variable {Slot Key Value : Type}

/-- The entries of a cache: a key and its value. -/
abbrev Cache (Slot Key Value : Type) := Slot → Key × Value

/-- Replace the entry in the slot of a key. -/
def insert
    [DecidableEq Slot]
    (slotOf : Key → Slot)
    (cache : Cache Slot Key Value)
    (key : Key)
    (value : Value) : Cache Slot Key Value :=
  Function.update cache (slotOf key) (key, value)

/-- A slot has been filled. -/
def Filled
    (slotOf : Key → Slot)
    (history : List (Key × Value))
    (slot : Slot) : Prop :=
  ∃ entry ∈ history, slotOf entry.1 = slot

/-- Filled slots hold what was inserted, and the others what they held at the
start. -/
def Holds
    (slotOf : Key → Slot)
    (initial : Cache Slot Key Value)
    (history : List (Key × Value))
    (cache : Cache Slot Key Value) : Prop :=
  ∀ slot,
    (Filled slotOf history slot → cache slot ∈ history) ∧
      (¬ Filled slotOf history slot → cache slot = initial slot)

variable
  {slotOf : Key → Slot}
  {initial cache : Cache Slot Key Value}
  {history : List (Key × Value)}

theorem Holds.start (initial : Cache Slot Key Value) :
    Holds slotOf initial [] initial := by
  intro slot
  refine ⟨?_, fun _ => rfl⟩
  rintro ⟨entry, member, -⟩
  cases member

theorem filled_append
    {key : Key}
    {value : Value}
    {slot : Slot} :
    Filled slotOf (history ++ [(key, value)]) slot ↔
      Filled slotOf history slot ∨ slotOf key = slot := by
  constructor
  · rintro ⟨entry, member, rfl⟩
    rcases List.mem_append.mp member with before | last
    · exact .inl ⟨entry, before, rfl⟩
    · rw [List.mem_singleton.mp last]
      exact .inr rfl
  · rintro (⟨entry, member, rfl⟩ | rfl)
    · exact ⟨entry, List.mem_append_left _ member, rfl⟩
    · exact ⟨(key, value), by simp, rfl⟩

theorem Holds.insert
    [DecidableEq Slot]
    (holds : Holds slotOf initial history cache)
    (key : Key)
    (value : Value) :
    Holds slotOf initial (history ++ [(key, value)])
      (insert slotOf cache key value) := by
  intro slot
  by_cases same : slot = slotOf key
  · subst same
    refine ⟨fun _ => ?_, fun unfilled => ?_⟩
    · rw [DirectMapped.insert, Function.update_self]
      exact List.mem_append_right _ (List.mem_singleton.mpr rfl)
    · exact absurd (filled_append.mpr (.inr rfl)) unfilled
  · obtain ⟨filled, unfilled⟩ := holds slot
    rw [DirectMapped.insert, Function.update_of_ne same, filled_append]
    refine ⟨?_, fun absent => unfilled fun here => absent (.inl here)⟩
    rintro (here | here)
    · exact List.mem_append_left _ (filled here)
    · exact absurd here.symm same

/-- A lookup that finds its key finds a value that was inserted for it, unless
it finds an entry from the start. -/
theorem Holds.lookup
    {key : Key}
    (holds : Holds slotOf initial history cache)
    (found : (cache (slotOf key)).1 = key)
    (fresh : (initial (slotOf key)).1 = key →
      Filled slotOf history (slotOf key)) :
    (key, (cache (slotOf key)).2) ∈ history := by
  obtain ⟨filled, unfilled⟩ := holds (slotOf key)
  by_cases isFilled : Filled slotOf history (slotOf key)
  · have member := filled isFilled
    rwa [← Prod.eta (cache (slotOf key)), found] at member
  · have same := unfilled isFilled
    rw [same] at found
    exact absurd (fresh found) isFilled

end DirectMapped
end Oxtra

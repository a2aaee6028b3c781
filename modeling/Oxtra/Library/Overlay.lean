import Mathlib.Data.List.Basic

/-!
# Overlays

A function is painted over by a list of layers, each defined on some of its
arguments.  The last layer that is defined on an argument gives the value
there.
-/

namespace Overlay

variable {Key Value Layer : Type*}

/-- Item `index` of a list is the last one with the property. -/
structure LastWith
    (property : Layer -> Prop)
    (layers : List Layer)
    (index : Nat)
    (layer : Layer) : Prop where
  isAt : layers[index]? = some layer
  holds : property layer
  none_later :
    ∀ later other, index < later → layers[later]? = some other →
      ¬property other

namespace LastWith

variable {property : Layer -> Prop} {layers : List Layer}

theorem mem
    {index : Nat}
    {layer : Layer}
    (last : LastWith property layers index layer) :
    layer ∈ layers :=
  List.mem_of_getElem? last.isAt

theorem congr
    {property' : Layer -> Prop}
    {index : Nat}
    {layer : Layer}
    (last : LastWith property layers index layer)
    (same : ∀ item ∈ layers, property item ↔ property' item) :
    LastWith property' layers index layer where
  isAt := last.isAt
  holds := (same layer last.mem).mp last.holds
  none_later later other after isAt holds :=
    last.none_later later other after isAt
      ((same other (List.mem_of_getElem? isAt)).mpr holds)

theorem cons
    {index : Nat}
    {layer first : Layer}
    (last : LastWith property layers index layer) :
    LastWith property (first :: layers) (index + 1) layer where
  isAt := by rw [List.getElem?_cons_succ]; exact last.isAt
  holds := last.holds
  none_later later other after isAt := by
    obtain ⟨later, rfl⟩ := Nat.exists_eq_succ_of_ne_zero (by omega : later ≠ 0)
    rw [Nat.succ_eq_add_one, List.getElem?_cons_succ] at isAt
    exact last.none_later later other (by omega) isAt

theorem tail
    {index : Nat}
    {layer first : Layer}
    (last : LastWith property (first :: layers) (index + 1) layer) :
    LastWith property layers index layer where
  isAt := by rw [← List.getElem?_cons_succ]; exact last.isAt
  holds := last.holds
  none_later later other after isAt :=
    last.none_later (later + 1) other (by omega)
      (by rw [List.getElem?_cons_succ]; exact isAt)

/-- Where the first item is the last with the property, no other has it. -/
theorem not_of_mem_tail
    {layer first other : Layer}
    (last : LastWith property (first :: layers) 0 layer)
    (member : other ∈ layers) :
    ¬property other := by
  obtain ⟨later, isAt⟩ := List.getElem?_of_mem member
  exact last.none_later (later + 1) other (by omega)
    (by rw [List.getElem?_cons_succ]; exact isAt)

/-- Some item is the last with the property, or none has it. -/
theorem exists_or_forall_not
    (property : Layer -> Prop)
    (layers : List Layer) :
    (∃ index layer, LastWith property layers index layer) ∨
      ∀ layer ∈ layers, ¬property layer := by
  induction layers with
  | nil => exact Or.inr (by simp)
  | cons first layers inductionHypothesis =>
      rcases inductionHypothesis with ⟨index, layer, last⟩ | none
      · exact Or.inl ⟨index + 1, layer, last.cons⟩
      · by_cases holds : property first
        · refine Or.inl ⟨0, first, rfl, holds, fun later other after isAt => ?_⟩
          obtain ⟨later, rfl⟩ :=
            Nat.exists_eq_succ_of_ne_zero (by omega : later ≠ 0)
          rw [Nat.succ_eq_add_one, List.getElem?_cons_succ] at isAt
          exact none other (List.mem_of_getElem? isAt)
        · refine Or.inr fun layer member => ?_
          rcases List.mem_cons.mp member with rfl | member
          · exact holds
          · exact none layer member

end LastWith

/-- Paint a layer over a function. -/
def paint
    (layer : Key -> Option Value)
    (function : Key -> Value) : Key -> Value :=
  fun key => (layer key).getD (function key)

/-- Paint the layers of a list, one after another. -/
def overlay
    (layer : Layer -> Key -> Option Value)
    (layers : List Layer)
    (function : Key -> Value) : Key -> Value :=
  layers.foldl (fun function item => paint (layer item) function) function

variable
  {layer : Layer -> Key -> Option Value}
  {layers : List Layer}
  {function : Key -> Value}
  {key : Key}

@[simp] theorem overlay_nil :
    overlay layer [] function = function := rfl

@[simp] theorem overlay_cons (first : Layer) :
    overlay layer (first :: layers) function =
      overlay layer layers (paint (layer first) function) := rfl

/-- Where no layer is defined the function is as before. -/
theorem overlay_of_forall_not
    (undefined : ∀ item ∈ layers, layer item key = none) :
    overlay layer layers function key = function key := by
  induction layers generalizing function with
  | nil => rfl
  | cons first layers inductionHypothesis =>
      rw [overlay_cons,
        inductionHypothesis fun item member =>
          undefined item (List.mem_cons_of_mem first member),
        paint, undefined first List.mem_cons_self]
      rfl

/-- The last layer that is defined at a key gives the value there. -/
theorem overlay_of_last
    {index : Nat}
    {item : Layer}
    {value : Value}
    (last :
      LastWith (fun item => (layer item key).isSome) layers index item)
    (isValue : layer item key = some value) :
    overlay layer layers function key = value := by
  induction layers generalizing function index with
  | nil => exact absurd last.isAt (by simp)
  | cons first layers inductionHypothesis =>
      cases index with
      | zero =>
          have firstEq : first = item := by simpa using last.isAt
          have undefined : ∀ other ∈ layers, layer other key = none := by
            intro other member
            simpa using last.not_of_mem_tail member
          rw [overlay_cons, overlay_of_forall_not undefined, paint, firstEq,
            isValue]
          rfl
      | succ index => exact inductionHypothesis last.tail

end Overlay

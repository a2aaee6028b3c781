import Mathlib.Data.Nat.Basic

/-!
# Stacks in a ring

A stack that lives in a ring of cells forgets its oldest values.  A value that
is pushed is still there for the pop that belongs to it, as long as the stack
does not grow around the whole ring in between.
-/

namespace Oxtra

/-- Values in the cells of a ring, and the position behind the newest one. -/
structure Ring (size : Nat) (Value : Type) where
  position : Fin size
  cells : Fin size -> Value

namespace Ring

variable {size : Nat} {Value : Type}

/-- What happens to a stack. -/
inductive Event (Value : Type) where
  | push (value : Value)
  | pop
  deriving DecidableEq, Repr

/-! ## Steps -/

/-- The next position, and the one before. -/
def next (position : Fin size) : Fin size :=
  ⟨(position.val + 1) % size, Nat.mod_lt _ position.pos⟩

@[inherit_doc next] def previous (position : Fin size) : Fin size :=
  ⟨(position.val + (size - 1)) % size, Nat.mod_lt _ position.pos⟩

def push (ring : Ring size Value) (value : Value) : Ring size Value where
  position := next ring.position
  cells index := if index = ring.position then value else ring.cells index

def pop (ring : Ring size Value) : Ring size Value :=
  { ring with position := previous ring.position }

/-- The newest value. -/
def top (ring : Ring size Value) : Value :=
  ring.cells (previous ring.position)

def step (ring : Ring size Value) : Event Value -> Ring size Value
  | .push value => ring.push value
  | .pop => ring.pop

def run (ring : Ring size Value) (events : List (Event Value)) :
    Ring size Value :=
  events.foldl step ring

/-! ## Balanced events -/

/-- The events start at some height of the stack, never leave the heights
between zero and a bound, and end at zero. -/
def Stays (bound : Nat) : Nat -> List (Event Value) -> Prop
  | height, [] => height = 0
  | height, .push _ :: rest => height + 1 ≤ bound ∧ Stays bound (height + 1) rest
  | 0, .pop :: _ => False
  | height + 1, .pop :: rest => Stays bound height rest

theorem previous_next (position : Fin size) :
    previous (next position) = position := by
  have bound := position.isLt
  apply Fin.ext
  simp only [previous, next]
  rcases Nat.lt_or_ge (position.val + 1) size with less | notLess
  · rw [Nat.mod_eq_of_lt less,
      show position.val + 1 + (size - 1) = position.val + size by omega,
      Nat.add_mod_right, Nat.mod_eq_of_lt bound]
  · rw [show position.val + 1 = size by omega, Nat.mod_self, Nat.zero_add,
      Nat.mod_eq_of_lt (by omega)]
    omega

/-- Another position some steps further. -/
def Ahead (start : Fin size) (distance : Nat) (position : Fin size) : Prop :=
  position.val = (start.val + distance) % size

theorem Ahead.next
    {start position : Fin size}
    {distance : Nat}
    (ahead : Ahead start distance position) :
    Ahead start (distance + 1) (next position) := by
  unfold Ahead Ring.next at *
  simp only [ahead, Nat.mod_add_mod, Nat.add_assoc]

theorem Ahead.previous
    {start position : Fin size}
    {distance : Nat}
    (ahead : Ahead start (distance + 1) position) :
    Ahead start distance (previous position) := by
  have positive := start.pos
  unfold Ahead Ring.previous at *
  simp only [ahead, Nat.mod_add_mod]
  rw [show start.val + (distance + 1) + (size - 1) =
    start.val + distance + size by omega, Nat.add_mod_right]

theorem Ahead.eq
    {start first second : Fin size}
    {distance : Nat}
    (firstAhead : Ahead start distance first)
    (secondAhead : Ahead start distance second) :
    first = second :=
  Fin.ext (firstAhead.trans secondAhead.symm)

/-- Fewer steps than all do not lead back to the start. -/
theorem Ahead.ne
    {start position : Fin size}
    {distance : Nat}
    (ahead : Ahead start distance position)
    (positive : 0 < distance)
    (less : distance < size) :
    start ≠ position := by
  rintro rfl
  have bound := start.isLt
  unfold Ahead at ahead
  rcases Nat.lt_or_ge (start.val + distance) size with small | large
  · rw [Nat.mod_eq_of_lt small] at ahead
    omega
  · rw [Nat.mod_eq_sub_mod large, Nat.mod_eq_of_lt (by omega)] at ahead
    omega

/-- Events above a cell keep it. -/
theorem cells_run_of_stays
    {ring : Ring size Value}
    {start : Fin size}
    {bound height : Nat}
    {events : List (Event Value)}
    (ahead : Ahead start (height + 1) ring.position)
    (bounded : bound < size)
    (stays : Stays bound height events) :
    (ring.run events).cells start = ring.cells start ∧
      Ahead start 1 (ring.run events).position := by
  induction events generalizing ring height with
  | nil =>
      obtain rfl : height = 0 := stays
      exact ⟨rfl, ahead⟩
  | cons event rest inductionHypothesis =>
      cases event with
      | push value =>
          obtain ⟨higher, staysRest⟩ := stays
          obtain ⟨kept, reached⟩ :=
            @inductionHypothesis (ring.push value) (height + 1) ahead.next
              staysRest
          refine ⟨kept.trans ?_, reached⟩
          exact if_neg (ahead.ne (Nat.succ_pos height) (by omega))
      | pop =>
          cases height with
          | zero => exact absurd stays id
          | succ height =>
              exact @inductionHypothesis ring.pop height ahead.previous stays

/-- The pop that belongs to a push finds the value that was pushed. -/
theorem top_of_balanced
    (ring : Ring size Value)
    {value : Value}
    {bound : Nat}
    {between : List (Event Value)}
    (bounded : bound < size)
    (balanced : Stays bound 0 between) :
    ((ring.push value).run between).top = value := by
  have ahead : Ahead ring.position 1 (ring.push value).position := rfl
  obtain ⟨kept, reached⟩ := cells_run_of_stays ahead bounded balanced
  have back : previous ((ring.push value).run between).position =
      ring.position := by
    rw [reached.eq ahead]
    exact previous_next ring.position
  rw [top, back, kept]
  exact if_pos rfl

end Ring
end Oxtra

import Mathlib.Logic.Function.Iterate

/-!
# Passes with an early exit

A loop that makes at most some number of passes, and stops behind the first one
whose state tells it to.
-/

namespace Oxtra
namespace EarlyExit

variable {State : Type} (stops : State -> Prop) [DecidablePred stops]
variable (next : State -> State)

/-- The number of passes from a state, of which there are at most some.  A pass
stops the loop if the state in front of it says so. -/
def passes : Nat -> State -> Nat
  | 0, _ => 0
  | count + 1, state => if stops state then 1 else passes count (next state) + 1

theorem passes_le (count : Nat) (state : State) :
    passes stops next count state ≤ count := by
  induction count generalizing state with
  | zero => exact Nat.le_refl 0
  | succ count inductionHypothesis =>
      rw [passes]
      split
      · omega
      · exact Nat.succ_le_succ (inductionHypothesis (next state))

theorem passes_eq_zero_iff (count : Nat) (state : State) :
    passes stops next count state = 0 ↔ count = 0 := by
  cases count with
  | zero => simp [passes]
  | succ count =>
      rw [passes]
      split <;> simp

variable {stops next}

/-- The first pass may stop the loop. -/
theorem passes_eq_one
    {count : Nat}
    (positive : count ≠ 0)
    {state : State}
    (stopped : stops state) :
    passes stops next count state = 1 := by
  cases count with
  | zero => exact absurd rfl positive
  | succ count => rw [passes, if_pos stopped]

/-- Loops stop behind as many passes if their states are related. -/
theorem passes_congr
    {Other : Type}
    {otherStops : Other -> Prop}
    [DecidablePred otherStops]
    {otherNext : Other -> Other}
    {related : State -> Other -> Prop}
    (same : ∀ state other, related state other ->
      (stops state ↔ otherStops other))
    (step : ∀ state other, related state other ->
      related (next state) (otherNext other))
    (count : Nat)
    {state : State}
    {other : Other}
    (start : related state other) :
    passes stops next count state = passes otherStops otherNext count other := by
  induction count generalizing state other with
  | zero => rfl
  | succ count inductionHypothesis =>
      rw [passes, passes, inductionHypothesis (step state other start),
        if_congr (same state other start) rfl rfl]

/-- The last pass stops the loop, or is the last of all that there may be. -/
theorem passes_spec
    {count : Nat}
    (positive : count ≠ 0)
    (state : State) :
    ∃ last, passes stops next count state = last + 1 ∧ last < count ∧
      (∀ pass < last, ¬ stops (next^[pass] state)) ∧
      (stops (next^[last] state) ∨ last + 1 = count) := by
  induction count generalizing state with
  | zero => exact absurd rfl positive
  | succ count inductionHypothesis =>
      by_cases stopped : stops state
      · exact ⟨0, passes_eq_one positive stopped, by omega, by simp,
          Or.inl stopped⟩
      · by_cases single : count = 0
        · subst single
          exact ⟨0, by rw [passes, if_neg stopped, passes], by omega, by simp,
            Or.inr rfl⟩
        · obtain ⟨last, total, inside, before, exits⟩ :=
            inductionHypothesis single (next state)
          refine ⟨last + 1, by rw [passes, if_neg stopped, total],
            Nat.succ_lt_succ inside, fun pass less => ?_, ?_⟩
          · cases pass with
            | zero => exact stopped
            | succ pass =>
                exact before pass (Nat.lt_of_succ_lt_succ less)
          · exact exits.imp_right (congrArg (· + 1))

end EarlyExit
end Oxtra

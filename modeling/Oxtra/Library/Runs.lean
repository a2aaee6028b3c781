import Mathlib.Data.List.Basic

/-!
# Runs of a partial step function

A system that takes events, one after the other, as long as it has a step for
them.  A property of every step of a run follows from an invariant.
-/

namespace Oxtra
namespace PartialStep

variable {State Event : Type*}

section Runs

variable (step : State -> Event -> Option State)

/-- The state after some events. -/
def run : State -> List Event -> Option State
  | state, [] => some state
  | state, event :: rest => (step state event).bind fun next => run next rest

/-- There is a step for every event, and a relation holds of the state before
it, the event and the state after it. -/
def EveryStep
    (holds : State -> Event -> State -> Prop) : State -> List Event -> Prop
  | _, [] => True
  | state, event :: rest => ∃ next,
      step state event = some next ∧ holds state event next ∧
        EveryStep holds next rest

end Runs

variable {step : State -> Event -> Option State}

/-- An invariant, which may depend on the events to come, has a run to its
end. -/
theorem run_of_invariant
    {invariant : State -> List Event -> Prop}
    (progress : ∀ state event rest, invariant state (event :: rest) ->
      ∃ next, step state event = some next ∧ invariant next rest)
    {state : State}
    {events : List Event}
    (start : invariant state events) :
    ∃ final, run step state events = some final ∧ invariant final [] := by
  induction events generalizing state with
  | nil => exact ⟨state, rfl, start⟩
  | cons event rest inductionHypothesis =>
      obtain ⟨next, steps, kept⟩ := progress state event rest start
      rw [run, steps]
      exact inductionHypothesis kept

/-- Relations that agree on the steps from an invariant agree on the run. -/
theorem everyStep_congr
    {invariant : State -> List Event -> Prop}
    {first second : State -> Event -> State -> Prop}
    (progress : ∀ state event rest next, invariant state (event :: rest) ->
      step state event = some next ->
        invariant next rest ∧ (first state event next ↔
          second state event next))
    {state : State}
    {events : List Event}
    (start : invariant state events) :
    EveryStep step first state events ↔
      EveryStep step second state events := by
  induction events generalizing state with
  | nil => exact Iff.rfl
  | cons event rest inductionHypothesis =>
      refine exists_congr fun next => and_congr_right fun steps => ?_
      obtain ⟨kept, agrees⟩ := progress state event rest next start steps
      exact and_congr agrees (inductionHypothesis kept)

/-- What follows from an invariant holds of every step of a run whose steps
keep the invariant. -/
theorem EveryStep.of_invariant
    {invariant : State -> Prop}
    {meets holds : State -> Event -> State -> Prop}
    (keeps : ∀ state event next, invariant state ->
      step state event = some next -> meets state event next ->
        invariant next ∧ holds state event next)
    {state : State}
    {events : List Event}
    (start : invariant state)
    (every : EveryStep step meets state events) :
    EveryStep step holds state events := by
  induction events generalizing state with
  | nil => trivial
  | cons event rest inductionHypothesis =>
      obtain ⟨next, steps, met, everyRest⟩ := every
      obtain ⟨kept, here⟩ := keeps state event next start steps met
      exact ⟨next, steps, here, inductionHypothesis kept everyRest⟩

end PartialStep
end Oxtra

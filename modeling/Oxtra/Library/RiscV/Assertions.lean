import Oxtra.Library.RiscV.Holes
import Oxtra.Library.RiscV.Trace

/-!
# Assertions in code

What holds in front of every instruction of some code.  Code that goes from each
instruction to the next one is taken apart instruction by instruction, with what
is to hold behind it.  In front of it there may be code with branches that keeps
an invariant and does not jump into the code behind it.
-/

namespace Oxtra
namespace RiscV

/-! ## Behind an instruction -/

/-- The state in which a run ends. -/
def Exit.state? : Exit -> Option State
  | .ended state | .left _ state | .denied state => some state
  | .stuck => none

/-- The state behind a step. -/
def Step.state? : Step -> Option State
  | .next _ state => some state
  | .exit ending => ending.state?

/-- Code that goes from each instruction to the next one, unless it is left. -/
def FallsThrough (code : List Inst) : Prop :=
  ∀ inst ∈ code, inst.directOffset = none

namespace FallsThrough

variable {first second : List Inst}

@[simp] theorem nil : FallsThrough [] := by
  simp [FallsThrough]

@[simp] theorem cons_iff {inst : Inst} :
    FallsThrough (inst :: second) ↔
      inst.directOffset = none ∧ FallsThrough second := by
  simp [FallsThrough]

@[simp] theorem append_iff :
    FallsThrough (first ++ second) ↔
      FallsThrough first ∧ FallsThrough second := by
  simp only [FallsThrough, List.mem_append]
  constructor
  · intro falls
    exact ⟨fun inst member => falls inst (Or.inl member),
      fun inst member => falls inst (Or.inr member)⟩
  · rintro ⟨first, second⟩ inst (member | member)
    · exact first inst member
    · exact second inst member

theorem of_straight (straight : ∀ inst ∈ first, inst.isStraight = true) :
    FallsThrough first := by
  intro inst member
  have here := straight inst member
  cases inst <;> first | rfl | cases here

theorem avoids
    (falls : FallsThrough first)
    (start size index : Nat) : avoids start size index first = true := by
  induction first generalizing index with
  | nil => rfl
  | cons inst rest inductionHypothesis =>
      obtain ⟨here, further⟩ := cons_iff.mp falls
      rw [RiscV.avoids, here, inductionHypothesis further]
      rfl

end FallsThrough

namespace Environment

/-- What holds behind an instruction at any place, wherever it goes.  With a
call that does not come back the code is left. -/
def Behind
    (env : Environment)
    (invariant post : State -> Prop)
    (inst : Inst)
    (state : State) : Prop :=
  ∀ index, match inst with
  | .branch .. | .ecall => post state
  | .jal rd _ => post (state.set rd (env.address (index + 1)))
  | .jalr rd rs1 offset =>
      let linked := state.set rd (env.address (index + 1))
      match env.call (jumpTarget state rs1 offset) linked with
      | some returned => post returned
      | none => invariant linked
  | inst => post (inst.apply (env.address index) state)

/-- The code keeps the invariant, and the postcondition holds behind it, if it
goes from each instruction to the next one. -/
def Asserts
    (env : Environment)
    (invariant : State -> Prop) :
    List Inst -> (State -> Prop) -> State -> Prop
  | [], post, state => post state
  | inst :: rest, post, state =>
      invariant state ∧ (env.permits inst state = true ->
        env.Behind invariant (env.Asserts invariant rest post) inst state)

section Rules

variable {env : Environment} {invariant post more : State -> Prop}
variable {inst : Inst} {first second : List Inst} {state : State}

theorem behind_straight_iff (straight : inst.isStraight = true) :
    env.Behind invariant post inst state ↔
      ∀ index, post (inst.apply (env.address index) state) := by
  cases inst
  case jal | jalr | branch | ecall => simp [Inst.isStraight] at straight
  all_goals exact Iff.rfl

/-- A call comes back or the code is left. -/
theorem behind_jalr
    {rd rs1 : Register}
    {offset : BitVec 12}
    (calls : ∀ index,
      let linked := state.set rd (env.address (index + 1))
      let target := jumpTarget state rs1 offset
      (∀ returned, env.call target linked = some returned -> post returned) ∧
        (env.call target linked = none -> invariant linked)) :
    env.Behind invariant post (.jalr rd rs1 offset) state := by
  intro index
  obtain ⟨comesBack, leaves⟩ := calls index
  simp only
  split
  · rename_i returned called
    exact comesBack returned called
  · rename_i left
    exact leaves left

theorem Behind.mono
    {weaker : State -> Prop}
    (behind : env.Behind invariant post inst state)
    (leaves : ∀ after, invariant after -> weaker after)
    (implies : ∀ after, post after -> more after) :
    env.Behind weaker more inst state := by
  intro index
  have here := behind index
  cases inst
  case jalr rd rs1 offset =>
    simp only at here ⊢
    split
    · rename_i returned called
      rw [called] at here
      exact implies _ here
    · rename_i left
      rw [left] at here
      exact leaves _ here
  all_goals exact implies _ here

theorem Behind.imp
    (behind : env.Behind invariant post inst state)
    (implies : ∀ after, post after -> more after) :
    env.Behind invariant more inst state :=
  behind.mono (fun _ => id) implies

/-- What holds behind an instruction for each of some reasons. -/
theorem behind_forall
    {Reason : Type}
    {allowed : Reason -> Prop}
    {kept : Reason -> State -> Prop}
    (behind : ∀ reason, allowed reason ->
      env.Behind (kept reason) (kept reason) inst state) :
    env.Behind (fun after => ∀ reason, allowed reason -> kept reason after)
      (fun after => ∀ reason, allowed reason -> kept reason after) inst
      state := by
  intro index
  cases inst
  case jalr rd rs1 offset =>
    simp only
    split
    · rename_i returned called
      intro reason isAllowed
      have here := behind reason isAllowed index
      simpa only [called] using here
    · rename_i left
      intro reason isAllowed
      have here := behind reason isAllowed index
      simpa only [left] using here
  all_goals exact fun reason isAllowed => behind reason isAllowed index

@[simp] theorem asserts_nil :
    env.Asserts invariant [] post state ↔ post state := Iff.rfl

theorem asserts_cons :
    env.Asserts invariant (inst :: second) post state ↔
      invariant state ∧ (env.permits inst state = true ->
        env.Behind invariant (env.Asserts invariant second post) inst
          state) := Iff.rfl

/-- An instruction that computes, loads or stores. -/
theorem asserts_straight
    (straight : inst.isStraight = true)
    (holds : invariant state)
    (further : ∀ index, env.permits inst state = true ->
      env.Asserts invariant second post
        (inst.apply (env.address index) state)) :
    env.Asserts invariant (inst :: second) post state :=
  ⟨holds, fun permitted => (behind_straight_iff straight).mpr fun index =>
    further index permitted⟩

theorem Asserts.imp
    (asserts : env.Asserts invariant first post state)
    (implies : ∀ after, post after -> more after) :
    env.Asserts invariant first more state := by
  induction first generalizing state with
  | nil => exact implies state asserts
  | cons inst rest inductionHypothesis =>
      exact ⟨asserts.1, fun permitted =>
        (asserts.2 permitted).imp fun _ further =>
          inductionHypothesis further⟩

theorem Asserts.append
    (asserts : env.Asserts invariant first
      (env.Asserts invariant second post) state) :
    env.Asserts invariant (first ++ second) post state := by
  induction first generalizing state with
  | nil => exact asserts
  | cons inst rest inductionHypothesis =>
      exact ⟨asserts.1, fun permitted =>
        (asserts.2 permitted).imp fun _ further =>
          inductionHypothesis further⟩

theorem Asserts.holds
    (asserts : env.Asserts invariant first invariant state) :
    invariant state := by
  cases first with
  | nil => exact asserts
  | cons inst rest => exact asserts.1

/-- Code whose instructions keep the invariant. -/
theorem asserts_of_behind
    (keeps : ∀ inst ∈ first, ∀ state, invariant state ->
      env.permits inst state = true ->
        env.Behind invariant invariant inst state)
    (holds : invariant state) :
    env.Asserts invariant first invariant state := by
  induction first generalizing state with
  | nil => exact holds
  | cons inst rest inductionHypothesis =>
      refine ⟨holds, fun permitted =>
        (keeps inst (by simp) state holds permitted).imp fun after held => ?_⟩
      exact inductionHypothesis
        (fun inst member => keeps inst (by simp [member])) held

end Rules

/-! ## Runs -/

section Runs

variable {env : Environment} {invariant post : State -> Prop}
variable {code front back : List Inst} {inst : Inst} {index : Nat}
variable {state after : State}

/-- A step goes to the next instruction or along a direct jump. -/
theorem step_next
    {next : Nat}
    (fetch : code[index]? = some inst)
    (steps : env.step code index state = .next next after) :
    next = index + 1 ∨ ∃ offset, inst.directOffset = some offset ∧
      jumpIndex index offset = some next := by
  have jumps {offset : Int} {state : State}
      (steps : stepTo code (jumpIndex index offset) state =
        .next next after) :
      jumpIndex index offset = some next := by
    unfold stepTo at steps
    split at steps
    · rename_i target jumps
      split at steps
      · obtain ⟨rfl, -⟩ := Step.next.inj steps
        exact jumps
      · cases steps
    · cases steps
  by_cases permitted : env.permits inst state = true
  · rw [step_permitted fetch permitted] at steps
    by_cases straight : inst.isStraight = true
    · rw [execute_straight straight] at steps
      exact Or.inl (Step.next.inj steps).1.symm
    · cases inst
      case jal rd offset => exact Or.inr ⟨_, rfl, jumps steps⟩
      case branch kind rs1 rs2 offset =>
        simp only [execute] at steps
        split at steps
        · exact Or.inr ⟨_, rfl, jumps steps⟩
        · exact Or.inl (Step.next.inj steps).1.symm
      case jalr rd rs1 offset =>
        simp only [execute] at steps
        split at steps
        · exact Or.inl (Step.next.inj steps).1.symm
        · cases steps
      case ecall => cases steps
      all_goals exact absurd rfl straight
  · rw [step_denied fetch permitted] at steps
    cases steps

/-- What holds behind an instruction holds behind its step. -/
theorem Behind.step
    (fetch : code[index]? = some inst)
    (holds : invariant state)
    (behind : env.permits inst state = true ->
      env.Behind invariant post inst state) :
    (∀ next, env.step code index state = .next next after -> post after) ∧
      ∀ exit, env.step code index state = .exit exit ->
        exit.state? = some after -> invariant after := by
  have direct {target : Option Nat} {moved : State} (held : post moved) :
      (∀ next, stepTo code target moved = .next next after -> post after) ∧
        ∀ exit, stepTo code target moved = .exit exit ->
          exit.state? = some after -> invariant after := by
    unfold stepTo
    refine ⟨fun next steps => ?_, fun exit steps ends => ?_⟩
    · split at steps
      · split at steps
        · obtain ⟨-, rfl⟩ := Step.next.inj steps
          exact held
        · cases steps
      · cases steps
    · split at steps
      · split at steps
        · cases steps
        · cases steps
          cases ends
      · cases steps
        cases ends
  by_cases permitted : env.permits inst state = true
  · have here := behind permitted index
    rw [step_permitted fetch permitted]
    by_cases straight : inst.isStraight = true
    · rw [execute_straight straight]
      refine ⟨fun next steps => ?_, fun exit steps => by cases steps⟩
      obtain ⟨-, rfl⟩ := Step.next.inj steps
      exact (behind_straight_iff straight).mp (behind permitted) index
    · cases inst
      case jal rd offset => exact direct here
      case branch kind rs1 rs2 offset =>
        simp only [execute]
        split
        · exact direct here
        · refine ⟨fun next steps => ?_, fun exit steps => by cases steps⟩
          obtain ⟨-, rfl⟩ := Step.next.inj steps
          exact here
      case jalr rd rs1 offset =>
        simp only [execute] at here ⊢
        split
        · rename_i returned called
          rw [called] at here
          refine ⟨fun next steps => ?_, fun exit steps => by cases steps⟩
          obtain ⟨-, rfl⟩ := Step.next.inj steps
          exact here
        · rename_i left
          rw [left] at here
          refine ⟨fun next steps => (by cases steps), fun exit steps ends => ?_⟩
          cases steps
          obtain rfl := Option.some.inj ends
          exact here
      case ecall =>
        refine ⟨fun next steps => (by cases steps), fun exit steps ends => ?_⟩
        cases steps
        cases ends
      all_goals exact absurd rfl straight
  · rw [step_denied fetch permitted]
    refine ⟨fun next steps => (by cases steps), fun exit steps ends => ?_⟩
    cases steps
    obtain rfl := Option.some.inj ends
    exact holds

/-- How far a run has got: it is in the code in front, or the assertions of the
code behind it hold from here on. -/
def Runs
    (env : Environment)
    (invariant : State -> Prop)
    (front back : List Inst)
    (index : Nat)
    (state : State) : Prop :=
  invariant state ∧ (index < front.length ∨ front.length ≤ index ∧
    env.Asserts invariant (back.drop (index - front.length)) invariant state)

variable (keeps : ∀ inst ∈ front, ∀ state, invariant state ->
  env.permits inst state = true -> env.Behind invariant invariant inst state)
variable (avoid : avoids front.length back.length 0 front = true)
variable (falls : FallsThrough back)
variable (asserts : ∀ state, invariant state ->
  env.Asserts invariant back invariant state)

include asserts in
/-- The code behind is entered at its start or left. -/
theorem Runs.enters
    (holds : invariant state)
    (place : index ≤ front.length ∨ front.length + back.length ≤ index) :
    env.Runs invariant front back index state := by
  refine ⟨holds, ?_⟩
  rcases Nat.lt_or_ge index front.length with inFront | behind
  · exact Or.inl inFront
  · refine Or.inr ⟨behind, ?_⟩
    rcases place with atMost | atEnd
    · rw [show index - front.length = 0 by omega]
      exact asserts state holds
    · rw [List.drop_eq_nil_of_le (by omega)]
      exact holds

include keeps avoid falls asserts in
theorem Runs.step
    (runs : env.Runs invariant front back index state) :
    (∀ next, env.step (front ++ back) index state = .next next after ->
      env.Runs invariant front back next after) ∧
      ∀ exit, env.step (front ++ back) index state = .exit exit ->
        exit.state? = some after -> invariant after := by
  obtain ⟨holds, place⟩ := runs
  cases fetch : (front ++ back)[index]? with
  | none =>
      rw [Environment.step, fetch]
      refine ⟨fun next steps => (by cases steps), fun exit steps ends => ?_⟩
      cases steps
      obtain rfl := Option.some.inj ends
      exact holds
  | some inst =>
      have inside := (List.getElem?_eq_some_iff.mp fetch).1
      rw [List.length_append] at inside
      have found := fetch
      rcases place with inFront | ⟨behind, asserted⟩
      · rw [List.getElem?_append_left inFront] at found
        have stepped := @Behind.step env invariant invariant _ inst index state
          after fetch holds
          (keeps inst (List.mem_of_getElem? found) state holds)
        refine ⟨fun next steps => ?_, stepped.2⟩
        refine Runs.enters asserts (stepped.1 next steps) ?_
        rcases step_next fetch steps with rfl | ⟨offset, direct, jumps⟩
        · omega
        · rw [← Nat.zero_add index] at jumps
          exact avoids_get avoid found direct jumps
      · rw [List.getElem?_append_right behind] at found
        obtain ⟨fits, value⟩ := List.getElem?_eq_some_iff.mp found
        rw [List.drop_eq_getElem_cons fits, value] at asserted
        have stepped := @Behind.step env invariant _ _ inst index state after
          fetch holds asserted.2
        refine ⟨fun next steps => ?_, stepped.2⟩
        have further := stepped.1 next steps
        refine ⟨further.holds, ?_⟩
        rcases step_next fetch steps with rfl | ⟨offset, direct, jumps⟩
        · refine Or.inr ⟨by omega, ?_⟩
          rwa [show index + 1 - front.length =
            index - front.length + 1 by omega]
        · rw [falls inst (List.mem_of_getElem? found)] at direct
          cases direct

include keeps avoid falls asserts in
/-- A run through code that keeps the invariant, and then through code with
assertions. -/
theorem invariant_of_run
    {steps : Nat}
    (holds : invariant state)
    (place : index ≤ front.length ∨ front.length + back.length ≤ index)
    (runs : (env.run (front ++ back) steps index state).state? =
      some after) :
    invariant after := by
  have start := Runs.enters asserts holds place
  clear holds place
  induction steps generalizing index state with
  | zero =>
      obtain rfl := Option.some.inj runs
      exact start.1
  | succ steps inductionHypothesis =>
      rw [run] at runs
      cases taken : env.step (front ++ back) index state with
      | next next moved =>
          rw [taken] at runs
          exact inductionHypothesis runs
            ((start.step keeps avoid falls asserts).1 next taken)
      | exit exit =>
          rw [taken] at runs
          exact (start.step keeps avoid falls asserts).2 exit taken runs

end Runs

end Environment

end RiscV
end Oxtra

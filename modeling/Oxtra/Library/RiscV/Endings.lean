import Oxtra.Library.RiscV.Assertions

/-!
# Runs to the end of the code

A run to the end of two pieces of code comes to the end of the first piece and
then to the end of the second one, if no jump of the first piece leads into the
second one and the jumps of the second one stay in it.  Code that is skipped by
a branch is not visited.
-/

namespace Oxtra
namespace RiscV

/-! ## Jumps -/

/-- The direct jumps of some code that starts at an index lead to an index up
to a limit. -/
def jumpsWithin (limit : Nat) : Nat -> List Inst -> Prop
  | _, [] => True
  | index, inst :: rest =>
      (∀ offset, inst.directOffset = some offset ->
        ∃ target ≤ limit, jumpIndex index offset = some target) ∧
        jumpsWithin limit (index + 1) rest

/-- The direct jumps of the code lead to its instructions or to its end. -/
def JumpsInside (code : List Inst) : Prop := jumpsWithin code.length 0 code

section Jumps

variable {limit index : Nat} {first second code : List Inst} {inst : Inst}

theorem jumpsWithin_append :
    jumpsWithin limit index (first ++ second) ↔
      jumpsWithin limit index first ∧
        jumpsWithin limit (index + first.length) second := by
  induction first generalizing index with
  | nil => simp [jumpsWithin]
  | cons inst rest inductionHypothesis =>
      rw [List.cons_append, jumpsWithin, jumpsWithin, inductionHypothesis,
        List.length_cons, and_assoc, Nat.add_assoc, Nat.add_comm 1]

/-- A direct jump to some place. -/
theorem jumpsWithin_jump
    {target : Nat}
    {offset : Int}
    (direct : inst.directOffset = some offset)
    (reach : 2 * (index : Int) + offset = 2 * target)
    (inside : target ≤ limit)
    {rest : List Inst}
    (further : jumpsWithin limit (index + 1) rest) :
    jumpsWithin limit index (inst :: rest) := by
  refine ⟨fun other same => ⟨target, inside, ?_⟩, further⟩
  obtain rfl := Option.some.inj (direct.symm.trans same)
  rw [jumpIndex, reach, if_pos (by omega)]
  congr 1
  omega

theorem FallsThrough.jumpsWithin (falls : FallsThrough code) :
    jumpsWithin limit index code := by
  induction code generalizing index with
  | nil => trivial
  | cons inst rest inductionHypothesis =>
      obtain ⟨here, further⟩ := FallsThrough.cons_iff.mp falls
      refine ⟨fun offset direct => ?_, inductionHypothesis further⟩
      rw [here] at direct
      cases direct

theorem FallsThrough.jumpsInside (falls : FallsThrough code) :
    JumpsInside code :=
  falls.jumpsWithin

theorem jumpsWithin_mono
    {more : Nat}
    (within : jumpsWithin limit index code)
    (bound : limit ≤ more) :
    jumpsWithin more index code := by
  induction code generalizing index with
  | nil => trivial
  | cons inst rest inductionHypothesis =>
      refine ⟨fun offset direct => ?_, inductionHypothesis within.2⟩
      obtain ⟨target, inside, jumps⟩ := within.1 offset direct
      exact ⟨target, inside.trans bound, jumps⟩

/-- Jumps up to a limit do not lead behind it. -/
theorem avoids_of_jumpsWithin
    {start size : Nat}
    (within : jumpsWithin limit index code)
    (bound : limit ≤ start) :
    avoids start size index code = true := by
  induction code generalizing index with
  | nil => rfl
  | cons inst rest inductionHypothesis =>
      rw [avoids, inductionHypothesis within.2, Bool.and_true]
      cases direct : inst.directOffset with
      | none => rfl
      | some offset =>
          obtain ⟨target, inside, jumps⟩ := within.1 offset direct
          rw [Option.bind_some, jumps, Option.all_some]
          exact decide_eq_true (Or.inl (inside.trans bound))

theorem jumpsWithin_get
    {position : Nat}
    (within : jumpsWithin limit index code)
    (fetch : code[position]? = some inst)
    {offset : Int}
    (direct : inst.directOffset = some offset) :
    ∃ target ≤ limit, jumpIndex (index + position) offset = some target := by
  obtain ⟨before, value⟩ := List.getElem?_eq_some_iff.mp fetch
  have parts := List.take_append_drop position code
  rw [← parts, jumpsWithin_append, List.length_take_of_le before.le,
    List.drop_eq_getElem_cons before, value] at within
  exact within.2.1 offset direct

end Jumps

/-- A step of code with so many instructions in front of it. -/
def Step.behind (count : Nat) : Step -> Step
  | .next index state => .next (count + index) state
  | .exit ending => .exit ending

namespace Environment

variable {env : Environment} {first second code : List Inst}
variable {index steps : Nat} {state after : State}

/-! ## Two pieces of code -/

/-- No step leads out of the code. -/
theorem step_le
    {next : Nat}
    (steps : env.step code index state = .next next after) :
    next ≤ code.length := by
  cases fetch : code[index]? with
  | none =>
      rw [step, fetch] at steps
      cases steps
  | some inst =>
      have inside := (List.getElem?_eq_some_iff.mp fetch).1
      have jumps {target : Option Nat} {moved : State}
          (steps : stepTo code target moved = .next next after) :
          next ≤ code.length := by
        unfold stepTo at steps
        split at steps
        · split at steps
          · rename_i bound
            obtain ⟨rfl, -⟩ := Step.next.inj steps
            exact bound
          · cases steps
        · cases steps
      have further {moved : State}
          (steps : Step.next (index + 1) moved = .next next after) :
          next ≤ code.length := by
        obtain ⟨rfl, -⟩ := Step.next.inj steps
        exact inside
      by_cases permitted : env.permits inst state = true
      · rw [step_permitted fetch permitted] at steps
        cases inst
        case jal rd offset => exact jumps steps
        case branch kind rs1 rs2 offset =>
          simp only [execute] at steps
          split at steps
          · exact jumps steps
          · exact further steps
        case jalr rd rs1 offset =>
          simp only [execute] at steps
          split at steps
          · exact further steps
          · cases steps
        case ecall => cases steps
        all_goals exact further steps
      · rw [step_denied fetch permitted] at steps
        cases steps

/-- A step of the first piece stays in it. -/
theorem step_front
    (avoid : avoids first.length (second.length + 1) 0 first = true)
    (inside : index < first.length)
    {next : Nat}
    (steps : env.step (first ++ second) index state = .next next after) :
    next ≤ first.length ∧ env.step first index state = .next next after := by
  have bound := step_le steps
  have fetch : first[index]? = some first[index] :=
    List.getElem?_eq_getElem inside
  have fetchWhole : (first ++ second)[index]? = some first[index] := by
    rw [List.getElem?_append_left inside, fetch]
  generalize first[index] = inst at fetch fetchWhole
  have stays : next ≤ first.length := by
    rcases step_next fetchWhole steps with rfl | ⟨offset, direct, jumps⟩
    · exact inside
    · rw [List.length_append] at bound
      have outside := avoids_get avoid fetch direct (by rwa [Nat.zero_add])
      omega
  refine ⟨stays, ?_⟩
  have jumps {target : Option Nat} {moved : State}
      (steps : stepTo (first ++ second) target moved = .next next after) :
      stepTo first target moved = .next next after := by
    unfold stepTo at steps ⊢
    split at steps
    · split at steps
      · obtain ⟨rfl, rfl⟩ := Step.next.inj steps
        rw [if_pos stays]
      · cases steps
    · cases steps
  by_cases permitted : env.permits inst state = true
  · rw [step_permitted fetchWhole permitted] at steps
    rw [step_permitted fetch permitted]
    cases inst
    case jal rd offset => exact jumps steps
    case branch kind rs1 rs2 offset =>
      simp only [execute] at steps ⊢
      split at steps
      · rename_i taken
        rw [if_pos taken]
        exact jumps steps
      · rename_i notTaken
        rw [if_neg notTaken]
        exact steps
    all_goals exact steps
  · rw [step_denied fetchWhole permitted] at steps
    cases steps

/-- A step of the second piece. -/
theorem step_back (inside : JumpsInside second) :
    env.step (first ++ second) (first.length + index) state =
      ((env.shift first.length).step second index state).behind
        first.length := by
  have fetch : (first ++ second)[first.length + index]? = second[index]? := by
    rw [List.getElem?_append_right (Nat.le_add_right _ _),
      Nat.add_sub_cancel_left]
  cases found : second[index]? with
  | none =>
      rw [found] at fetch
      rw [step, step, fetch, found]
      rfl
  | some inst =>
      rw [found] at fetch
      have jumps {offset : Int} {moved : State}
          (direct : inst.directOffset = some offset) :
          stepTo (first ++ second) (jumpIndex (first.length + index) offset)
              moved =
            (stepTo second (jumpIndex index offset) moved).behind
              first.length := by
        obtain ⟨target, bound, reached⟩ := jumpsWithin_get inside found direct
        rw [Nat.zero_add] at reached
        have shifted : jumpIndex (first.length + index) offset =
            some (first.length + target) := by
          unfold jumpIndex at reached ⊢
          simp only [Option.ite_none_right_eq_some, Option.some.injEq]
            at reached ⊢
          omega
        rw [shifted, reached]
        simp only [stepTo, List.length_append]
        rw [if_pos bound, if_pos (by omega)]
        rfl
      by_cases permitted : env.permits inst state = true
      · have here : (env.shift first.length).permits inst state = true :=
          permitted
        rw [step_permitted fetch permitted, step_permitted found here]
        cases inst
        case jal rd offset =>
          simp only [execute, shift_address, ← Nat.add_assoc]
          exact jumps rfl
        case branch kind rs1 rs2 offset =>
          simp only [execute]
          split
          · exact jumps rfl
          · rfl
        case jalr rd rs1 offset =>
          simp only [execute, shift_address, shift_call, Nat.add_assoc]
          split <;> rfl
        case ecall => rfl
        all_goals
          simp only [execute, shift_address, Nat.add_assoc]
          rfl
      · have here : ¬ (env.shift first.length).permits inst state = true :=
          permitted
        rw [step_denied fetch permitted, step_denied found here]
        rfl

theorem run_back (inside : JumpsInside second) :
    env.run (first ++ second) steps (first.length + index) state =
        ((env.shift first.length).run second steps index state).behind
          first.length ∧
      env.trace (first ++ second) steps (first.length + index) state =
        (env.shift first.length).trace second steps index state := by
  induction steps generalizing index state with
  | zero => exact ⟨rfl, rfl⟩
  | succ steps inductionHypothesis =>
      have fetch : (first ++ second)[first.length + index]? =
          second[index]? := by
        rw [List.getElem?_append_right (Nat.le_add_right _ _),
          Nat.add_sub_cancel_left]
      rw [run, run, trace, trace, fetch, step_back inside]
      cases (env.shift first.length).step second index state with
      | next next moved =>
          obtain ⟨runs, traces⟩ := @inductionHypothesis next moved
          refine ⟨runs, ?_⟩
          simp only [Step.behind, traces]
      | exit exit => exact ⟨rfl, rfl⟩

/-- A run to the end is a run to the end of the first piece, and then one to
the end of the second. -/
theorem Traces.split
    (avoid : avoids first.length (second.length + 1) 0 first = true)
    (jumps : JumpsInside second)
    {visited : List (Inst × State)}
    (traces : env.Traces (first ++ second) state visited (.ended after)) :
    ∃ middle front back, env.Traces first state front (.ended middle) ∧
      (env.shift first.length).Traces second middle back (.ended after) ∧
        visited = front ++ back := by
  have splits (steps index : Nat) (state : State)
      (inside : index ≤ first.length)
      (ends : env.run (first ++ second) steps index state =
        .exit (.ended after)) :
      ∃ middle frontSteps backSteps,
        env.run first frontSteps index state = .exit (.ended middle) ∧
        (env.shift first.length).run second backSteps 0 middle =
          .exit (.ended after) ∧
        env.trace (first ++ second) steps index state =
          env.trace first frontSteps index state ++
            (env.shift first.length).trace second backSteps 0 middle := by
    induction steps generalizing index state with
    | zero => cases ends
    | succ steps inductionHypothesis =>
        by_cases atEnd : index = first.length
        · subst atEnd
          obtain ⟨runs, same⟩ :=
            @run_back env first second 0 (steps + 1) state jumps
          rw [Nat.add_zero first.length] at runs same
          rw [runs] at ends
          refine ⟨state, 1, steps + 1, ?_, ?_, ?_⟩
          · rw [run, step_length]
          · cases here : (env.shift first.length).run second (steps + 1) 0
                state with
            | next next moved =>
                rw [here] at ends
                cases ends
            | exit exit =>
                rw [here] at ends
                exact ends
          · rw [same, trace_length, List.nil_append]
        · have before : index < first.length := by omega
          have fetch : first[index]? = some first[index] :=
            List.getElem?_eq_getElem before
          have fetchWhole : (first ++ second)[index]? = some first[index] := by
            rw [List.getElem?_append_left before, fetch]
          rw [run] at ends
          cases taken : env.step (first ++ second) index state with
          | exit exit =>
              rw [taken] at ends
              obtain rfl := Step.exit.inj ends
              by_cases permitted : env.permits first[index] state = true
              · rw [step_permitted fetchWhole permitted] at taken
                exact absurd taken (execute_ne_ended _ _ _ _ _ _)
              · rw [step_denied fetchWhole permitted] at taken
                cases taken
          | next next moved =>
              obtain ⟨stays, same⟩ := step_front avoid before taken
              rw [taken] at ends
              obtain ⟨middle, frontSteps, backSteps, frontRuns, backRuns,
                joined⟩ := inductionHypothesis next moved stays ends
              refine ⟨middle, frontSteps + 1, backSteps, ?_, backRuns, ?_⟩
              · rw [run, same]
                exact frontRuns
              · rw [trace, trace, fetch, fetchWhole, taken, same]
                exact congrArg (List.cons _) joined
  obtain ⟨steps, ends, rfl⟩ := traces
  obtain ⟨middle, frontSteps, backSteps, frontRuns, backRuns, joined⟩ :=
    splits steps 0 state (Nat.zero_le _) ends
  exact ⟨middle, _, _, ⟨frontSteps, frontRuns, rfl⟩,
    ⟨backSteps, backRuns, rfl⟩, joined⟩

/-- A branch in front that is not taken. -/
theorem Traces.not_taken
    {kind : Branch}
    {rs1 rs2 : Register}
    {offset : BitVec 12}
    {rest : List Inst}
    (notTaken : ¬ kind.eval (state.get rs1) (state.get rs2) = true)
    (jumps : JumpsInside rest)
    {visited : List (Inst × State)}
    (traces : env.Traces (.branch kind rs1 rs2 offset :: rest) state visited
      (.ended after)) :
    ∃ back, (env.shift 1).Traces rest state back (.ended after) ∧
      visited = (.branch kind rs1 rs2 offset, state) :: back := by
  let branch : Inst := .branch kind rs1 rs2 offset
  obtain ⟨steps, ends, rfl⟩ := traces
  cases steps with
  | zero => cases ends
  | succ steps =>
      have fetch : (branch :: rest)[0]? = some branch := rfl
      by_cases permitted : env.permits branch state = true
      · have taken : env.step (branch :: rest) 0 state = .next 1 state := by
          rw [step_permitted fetch permitted]
          simp only [branch, execute]
          rw [if_neg notTaken]
        obtain ⟨runs, same⟩ :=
          @run_back env [branch] rest 0 steps state jumps
        rw [run, taken] at ends
        have further : env.run ([branch] ++ rest) steps 1 state =
          .exit (.ended after) := ends
        refine ⟨_, ⟨steps, ?_, rfl⟩, ?_⟩
        · cases here : (env.shift 1).run rest steps 0 state with
          | next next moved =>
              rw [List.length_singleton, Nat.add_zero, here] at runs
              rw [runs] at further
              cases further
          | exit exit =>
              rw [List.length_singleton, Nat.add_zero, here] at runs
              rw [runs] at further
              exact further
        · rw [trace, fetch, taken]
          exact congrArg (List.cons _) same
      · rw [run, step_denied fetch permitted] at ends
        cases ends

/-- Nothing is denied in a run to the end. -/
theorem Traces.permitted
    {visited : List (Inst × State)}
    (traces : env.Traces code state visited (.ended after)) :
    ∀ visit ∈ visited, env.permits visit.1 visit.2 = true := by
  have permits (steps index : Nat) (state : State)
      (ends : env.run code steps index state = .exit (.ended after)) :
      ∀ visit ∈ env.trace code steps index state,
        env.permits visit.1 visit.2 = true := by
    induction steps generalizing index state with
    | zero => cases ends
    | succ steps inductionHypothesis =>
        intro visit member
        rw [trace] at member
        rw [run] at ends
        cases fetch : code[index]? with
        | none =>
            rw [fetch] at member
            cases member
        | some inst =>
            rw [fetch] at member
            by_cases permitted : env.permits inst state = true
            · rcases List.mem_cons.mp member with rfl | further
              · exact permitted
              · cases taken : env.step code index state with
                | next next moved =>
                    rw [taken] at ends further
                    exact inductionHypothesis next moved ends visit further
                | exit exit =>
                    rw [taken] at further
                    cases further
            · rw [step_denied fetch permitted] at ends
              cases ends
  obtain ⟨steps, ends, rfl⟩ := traces
  exact permits steps 0 state ends

/-! ## Code without jumps -/

/-- A run to the end visits every instruction. -/
theorem Traces.visits
    (falls : FallsThrough code)
    {visited : List (Inst × State)}
    (traces : env.Traces code state visited (.ended after))
    {inst : Inst}
    (member : inst ∈ code) :
    ∃ before, (inst, before) ∈ visited := by
  obtain ⟨front, rest, rfl⟩ := List.append_of_mem member
  obtain ⟨fallsFront, fallsRest⟩ := FallsThrough.append_iff.mp falls
  obtain ⟨middle, before, back, -, ⟨steps, ends, rfl⟩, rfl⟩ :=
    traces.split (fallsFront.avoids _ _ _) fallsRest.jumpsInside
  refine ⟨middle, List.mem_append_right _ ?_⟩
  cases steps with
  | zero => cases ends
  | succ steps => exact List.mem_cons_self

/-- Straight code ends in the state that its instructions make. -/
theorem Exits.eq_applyAll
    (straight : ∀ inst ∈ code, inst.isStraight = true)
    (exits : env.Exits code state (.ended after)) :
    after = applyAll env.origin state code := by
  induction code generalizing env state with
  | nil =>
      obtain ⟨steps, ends⟩ := exits
      cases steps with
      | zero => cases ends
      | succ steps => exact (Exit.ended.inj (Step.exit.inj ends)).symm
  | cons inst rest inductionHypothesis =>
      have here : inst.isStraight = true := straight inst (by simp)
      have falls := FallsThrough.cons_iff.mp (.of_straight straight)
      have first : FallsThrough [inst] := by simp [falls.1]
      obtain ⟨visited, traces⟩ := exits.traces
      obtain ⟨middle, front, back, ⟨steps, ends, -⟩, further, -⟩ :=
        @Traces.split env [inst] rest state after (first.avoids _ _ _)
          falls.2.jumpsInside visited traces
      have moved : middle = inst.apply env.origin state := by
        have origin : env.address 0 = env.origin := by simp [address]
        cases steps with
        | zero => cases ends
        | succ steps =>
            rw [run] at ends
            by_cases permitted : env.permits inst state = true
            · rw [step_permitted rfl permitted, execute_straight here] at ends
              cases steps with
              | zero => cases ends
              | succ steps =>
                  rw [← origin]
                  exact (Exit.ended.inj (Step.exit.inj ends)).symm
            · rw [step_denied rfl permitted] at ends
              cases ends
      rw [inductionHypothesis (fun other member => straight other (by
        simp [member])) further.exits, applyAll_cons, moved]
      congr 1

/-! ## Skipped code -/

/-- A branch that leads to the end skips what is behind it. -/
theorem mem_of_mem_trace_skipping
    {front rest : List Inst}
    {kind : Branch}
    {rs1 rs2 : Register}
    {offset : BitVec 12}
    (straight : ∀ inst ∈ front, inst.isStraight = true)
    {holds : State -> Prop}
    (keeps : ∀ inst ∈ front, ∀ pc state, holds state ->
      holds (inst.apply pc state))
    (taken : ∀ state, holds state ->
      kind.eval (state.get rs1) (state.get rs2) = true)
    (reach : jumpIndex front.length offset.toInt =
      some (front ++ .branch kind rs1 rs2 offset :: rest).length)
    (start : holds state)
    {visit : Inst × State}
    (member : visit ∈ env.trace
      (front ++ .branch kind rs1 rs2 offset :: rest) steps 0 state) :
    visit.1 ∈ front ++ [.branch kind rs1 rs2 offset] := by
  let leave : Inst := .branch kind rs1 rs2 offset
  have visits (steps index : Nat) (state : State)
      (inside : index ≤ front.length)
      (start : holds state)
      (member : visit ∈ env.trace (front ++ leave :: rest) steps index
        state) :
      visit.1 ∈ front ++ [leave] := by
    induction steps generalizing index state with
    | zero => cases member
    | succ steps inductionHypothesis =>
        rw [trace] at member
        by_cases atBranch : index = front.length
        · subst atBranch
          have fetch : (front ++ leave :: rest)[front.length]? =
              some leave := by
            simp
          rw [fetch] at member
          rcases List.mem_cons.mp member with rfl | further
          · simp
          · by_cases permitted : env.permits leave state = true
            · rw [step_permitted fetch permitted] at further
              simp only [leave, execute, if_pos (taken state start), reach,
                stepTo, Nat.le_refl, if_true] at further
              rw [trace_length] at further
              cases further
            · rw [step_denied fetch permitted] at further
              cases further
        · have before : index < front.length := by omega
          have fetch : (front ++ leave :: rest)[index]? =
              some front[index] := by
            rw [List.getElem?_append_left before,
              List.getElem?_eq_getElem before]
          have inFront : front[index] ∈ front := List.getElem_mem before
          rw [fetch] at member
          rcases List.mem_cons.mp member with rfl | further
          · exact List.mem_append_left _ inFront
          · by_cases permitted : env.permits front[index] state = true
            · rw [step_permitted fetch permitted,
                execute_straight (straight _ inFront)] at further
              exact inductionHypothesis (index + 1) _ before
                (keeps _ inFront _ _ start) further
            · rw [step_denied fetch permitted] at further
              cases further
  exact visits steps 0 state (Nat.zero_le _) start member

end Environment
end RiscV
end Oxtra

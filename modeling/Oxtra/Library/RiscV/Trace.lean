import Oxtra.Library.RiscV.Frame
import Oxtra.Library.RiscV.Program

/-!
# Traces of runs

The instructions that a run comes to, each with the state in front of it, and
the accesses to the memory that they make.
-/

namespace Oxtra
namespace RiscV

namespace Environment

/-! ## Visited instructions -/

/-- The instructions that a run of some steps comes to. -/
def trace
    (env : Environment)
    (code : List Inst) : Nat -> Nat -> State -> List (Inst × State)
  | 0, _, _ => []
  | steps + 1, index, state =>
      match code[index]? with
      | none => []
      | some inst =>
          (inst, state) ::
            match env.step code index state with
            | .next index state => env.trace code steps index state
            | .exit _ => []

/-- The run from the first instruction comes to these instructions and then
ends in this way. -/
def Traces
    (env : Environment)
    (code : List Inst)
    (state : State)
    (visited : List (Inst × State))
    (exit : Exit) : Prop :=
  ∃ steps, env.run code steps 0 state = .exit exit ∧
    env.trace code steps 0 state = visited

theorem Traces.exits
    {env : Environment}
    {code : List Inst}
    {state : State}
    {visited : List (Inst × State)}
    {exit : Exit}
    (traces : env.Traces code state visited exit) :
    env.Exits code state exit := by
  obtain ⟨steps, ends, -⟩ := traces
  exact ⟨steps, ends⟩

/-- A run that has ended comes to nothing more. -/
theorem trace_add
    {env : Environment}
    {code : List Inst}
    {steps index : Nat}
    {state : State}
    {exit : Exit}
    (ends : env.run code steps index state = .exit exit)
    (more : Nat) :
    env.trace code (steps + more) index state =
      env.trace code steps index state := by
  induction steps generalizing index state with
  | zero => cases ends
  | succ steps inductionHypothesis =>
      rw [Nat.add_right_comm, trace, trace]
      rw [run] at ends
      cases fetch : code[index]? with
      | none => rfl
      | some inst =>
          simp only [List.cons.injEq, true_and]
          cases stepped : env.step code index state with
          | next index state =>
              rw [stepped] at ends
              exact inductionHypothesis ends
          | exit exit => rfl

/-- A run has one trace only. -/
theorem Traces.unique
    {env : Environment}
    {code : List Inst}
    {state : State}
    {first second : List (Inst × State)}
    {firstExit secondExit : Exit}
    (firstTraces : env.Traces code state first firstExit)
    (secondTraces : env.Traces code state second secondExit) :
    first = second ∧ firstExit = secondExit := by
  refine ⟨?_, firstTraces.exits.unique secondTraces.exits⟩
  obtain ⟨firstSteps, firstEnds, rfl⟩ := firstTraces
  obtain ⟨secondSteps, secondEnds, rfl⟩ := secondTraces
  rw [← trace_add firstEnds secondSteps, ← trace_add secondEnds firstSteps,
    Nat.add_comm]

theorem mem_of_mem_trace
    {env : Environment}
    {code : List Inst}
    {steps index : Nat}
    {state : State}
    {visit : Inst × State}
    (member : visit ∈ env.trace code steps index state) :
    visit.1 ∈ code := by
  induction steps generalizing index state with
  | zero => cases member
  | succ steps inductionHypothesis =>
      rw [trace] at member
      cases fetch : code[index]? with
      | none =>
          rw [fetch] at member
          cases member
      | some inst =>
          rw [fetch] at member
          rcases List.mem_cons.mp member with rfl | further
          · exact List.mem_of_getElem? fetch
          · cases stepped : env.step code index state with
            | next index state =>
                rw [stepped] at further
                exact inductionHypothesis further
            | exit exit =>
                rw [stepped] at further
                cases further

/-- A run comes to instructions of the code. -/
theorem Traces.mem_code
    {env : Environment}
    {code : List Inst}
    {state : State}
    {visited : List (Inst × State)}
    {exit : Exit}
    (traces : env.Traces code state visited exit)
    {visit : Inst × State}
    (member : visit ∈ visited) :
    visit.1 ∈ code := by
  obtain ⟨steps, -, rfl⟩ := traces
  exact mem_of_mem_trace member

theorem Exits.traces
    {env : Environment}
    {code : List Inst}
    {state : State}
    {exit : Exit}
    (exits : env.Exits code state exit) :
    ∃ visited, env.Traces code state visited exit := by
  obtain ⟨steps, ends⟩ := exits
  exact ⟨_, steps, ends, rfl⟩

/-! ## Sequences -/

/-- What a piece of code comes to until it ends, inside of other code. -/
theorem trace_embed_ended
    (env : Environment)
    (before code after : List Inst)
    {steps index : Nat}
    {state final : State}
    (inside : index ≤ code.length)
    (ends : (env.shift before.length).run code steps index state =
      .exit (.ended final)) :
    ∃ taken, env.run (before ++ code ++ after) taken
        (before.length + index) state =
          .next (before.length + code.length) final ∧
      env.trace (before ++ code ++ after) taken (before.length + index) state =
        (env.shift before.length).trace code steps index state := by
  induction steps generalizing index state with
  | zero => cases ends
  | succ steps inductionHypothesis =>
      by_cases atEnd : index = code.length
      · subst atEnd
        have final : state = final := by
          simpa [run, step] using ends
        exact ⟨0, by rw [final]; rfl, by simp [trace]⟩
      · have fetch : code[index]? = some code[index] :=
          List.getElem?_eq_getElem (by omega)
        have fetchWhole : (before ++ code ++ after)[before.length + index]? =
            some code[index] := by
          rw [List.append_assoc, List.getElem?_append_right (by omega),
            Nat.add_sub_cancel_left, List.getElem?_append_left (by omega),
            fetch]
        rw [run] at ends
        rcases env.step_embed before code after
            (by omega : index < code.length) state with
          stuck | ⟨exit, here, there⟩ | ⟨target, next, bound, here, there⟩
        · rw [stuck] at ends
          cases ends
        · exfalso
          rw [here] at ends
          have exits : exit = .ended final := by simpa using ends
          rw [exits] at here
          by_cases permitted :
              (env.shift before.length).permits code[index] state = true
          · rw [step_permitted fetch permitted] at here
            exact execute_ne_ended _ _ _ _ _ _ here
          · rw [step_denied fetch permitted] at here
            cases here
        · rw [here] at ends
          obtain ⟨taken, reached, visits⟩ := inductionHypothesis bound ends
          refine ⟨taken + 1, ?_, ?_⟩
          · rw [run, there]
            exact reached
          · rw [trace, trace, fetchWhole, fetch]
            simp only [there, here, visits]

/-- What a piece of code comes to if it does not end, inside of other code. -/
theorem trace_embed_exit
    (env : Environment)
    (before code after : List Inst)
    {steps index : Nat}
    {state : State}
    {exit : Exit}
    (inside : index ≤ code.length)
    (ends : (env.shift before.length).run code steps index state = .exit exit)
    (notEnded : ∀ final, exit ≠ .ended final)
    (notStuck : exit ≠ .stuck) :
    env.trace (before ++ code ++ after) steps (before.length + index) state =
      (env.shift before.length).trace code steps index state := by
  induction steps generalizing index state with
  | zero => cases ends
  | succ steps inductionHypothesis =>
      by_cases atEnd : index = code.length
      · subst atEnd
        exfalso
        apply notEnded state
        simpa [run, step] using ends.symm
      · have fetch : code[index]? = some code[index] :=
          List.getElem?_eq_getElem (by omega)
        have fetchWhole : (before ++ code ++ after)[before.length + index]? =
            some code[index] := by
          rw [List.append_assoc, List.getElem?_append_right (by omega),
            Nat.add_sub_cancel_left, List.getElem?_append_left (by omega),
            fetch]
        rw [run] at ends
        rw [trace, trace, fetchWhole, fetch]
        rcases env.step_embed before code after
            (by omega : index < code.length) state with
          stuck | ⟨first, here, there⟩ | ⟨target, next, bound, here, there⟩
        · rw [stuck] at ends
          simp only [Step.exit.injEq] at ends
          exact absurd ends.symm notStuck
        · simp only [here, there]
        · rw [here] at ends
          simp only [here, there, inductionHypothesis bound ends]

theorem trace_run_add
    {env : Environment}
    {code : List Inst}
    {first index reached : Nat}
    {state middle : State}
    (runs : env.run code first index state = .next reached middle)
    (second : Nat) :
    env.trace code (first + second) index state =
      env.trace code first index state ++
        env.trace code second reached middle := by
  induction first generalizing index state with
  | zero =>
      rw [run] at runs
      cases runs
      simp [trace]
  | succ first inductionHypothesis =>
      rw [Nat.add_right_comm, trace, trace]
      rw [run] at runs
      cases fetch : code[index]? with
      | none => simp [step, fetch] at runs
      | some inst =>
          cases stepped : env.step code index state with
          | next index state =>
              rw [stepped] at runs
              simp only [inductionHypothesis runs, List.cons_append]
          | exit exit =>
              rw [stepped] at runs
              cases runs

theorem trace_length
    (env : Environment)
    (code : List Inst)
    (steps : Nat)
    (state : State) :
    env.trace code steps code.length state = [] := by
  cases steps <;> simp [trace]

theorem Traces.append
    {env : Environment}
    {first second : List Inst}
    {state middle : State}
    {visited further : List (Inst × State)}
    {exit : Exit}
    (firstEnds : env.Traces first state visited (.ended middle))
    (secondExits : (env.shift first.length).Traces second middle further exit)
    (notStuck : exit ≠ .stuck) :
    env.Traces (first ++ second) state (visited ++ further) exit := by
  obtain ⟨firstSteps, firstRun, rfl⟩ := firstEnds
  obtain ⟨secondSteps, secondRun, rfl⟩ := secondExits
  obtain ⟨taken, reached, visits⟩ := env.trace_embed_ended [] first second
    (Nat.zero_le _) (by simpa using firstRun)
  simp only [List.nil_append, List.length_nil, Nat.zero_add,
    shift_zero] at reached visits
  by_cases ended : ∃ final, exit = .ended final
  · obtain ⟨final, rfl⟩ := ended
    obtain ⟨takenNext, reachedEnd, visitsNext⟩ :=
      env.trace_embed_ended first second [] (Nat.zero_le _) secondRun
    simp only [List.append_nil, Nat.add_zero] at reachedEnd visitsNext
    refine ⟨taken + (takenNext + 1), ?_, ?_⟩
    · rw [run_add, reached]
      simp only []
      rw [run_add, reachedEnd, ← List.length_append]
      simp only [run, step_length]
    · rw [trace_run_add reached, trace_run_add reachedEnd, visits, visitsNext,
        ← List.length_append, trace_length, List.append_nil]
  · have exits := env.run_embed_exit first second [] (Nat.zero_le _)
      secondRun (fun final equal => ended ⟨final, equal⟩) notStuck
    have visitsNext := env.trace_embed_exit first second [] (Nat.zero_le _)
      secondRun (fun final equal => ended ⟨final, equal⟩) notStuck
    simp only [List.append_nil, Nat.add_zero] at exits visitsNext
    refine ⟨taken + secondSteps, ?_, ?_⟩
    · rw [run_add, reached]
      exact exits
    · rw [trace_run_add reached, visits, visitsNext]

/-! ## Straight code -/

/-- The instructions of straight code, each with the state in front of it. -/
def straightTrace (pc : Word) (state : State) :
    List Inst -> List (Inst × State)
  | [] => []
  | inst :: rest =>
      (inst, state) :: straightTrace (pc + 4) (inst.apply pc state) rest

theorem straightTrace_append
    (pc : Word)
    (state : State)
    (first second : List Inst) :
    straightTrace pc state (first ++ second) =
      straightTrace pc state first ++
        straightTrace (pc + BitVec.ofNat 64 (4 * first.length))
          (applyAll pc state first) second := by
  induction first generalizing pc state with
  | nil => simp [straightTrace]
  | cons inst rest inductionHypothesis =>
      rw [List.cons_append, straightTrace, inductionHypothesis, straightTrace,
        applyAll_cons, List.length_cons, Nat.mul_succ, Nat.add_comm,
        BitVec.ofNat_add, ← BitVec.add_assoc]
      rfl

/-- Straight code comes to all of its instructions. -/
theorem traces_straight
    {env : Environment}
    {state : State}
    {code : List Inst}
    (straight : ∀ inst ∈ code, inst.isStraight = true)
    (permits : env.PermitsAll state code) :
    env.Traces code state (straightTrace env.origin state code)
      (.ended (applyAll env.origin state code)) := by
  induction code generalizing env state with
  | nil => exact ⟨1, rfl, rfl⟩
  | cons inst rest inductionHypothesis =>
      obtain ⟨permitsHere, permitsRest⟩ := permits
      have first : env.Traces [inst] state [(inst, state)]
          (.ended (inst.apply env.origin state)) := by
        have stepped : env.step [inst] 0 state =
            .next 1 (inst.apply env.origin state) := by
          rw [step_permitted rfl permitsHere,
            execute_straight (straight inst (by simp))]
          simp [address]
        refine ⟨2, ?_, ?_⟩
        · simp only [run, stepped]
          rfl
        · simp only [trace, stepped, List.getElem?_cons_zero]
          rfl
      have next : (env.shift 1).origin = env.origin + 4 := rfl
      have further := inductionHypothesis
        (fun inst member => straight inst (List.mem_cons_of_mem _ member))
        permitsRest
      rw [next] at further
      exact first.append further (by simp)

/-- A run comes to the instruction behind straight code. -/
theorem mem_trace_of_straight
    {env : Environment}
    {state : State}
    {front : List Inst}
    (straight : ∀ inst ∈ front, inst.isStraight = true)
    (permits : env.PermitsAll state front)
    (inst : Inst)
    (rest : List Inst) :
    (inst, applyAll env.origin state front) ∈
      env.trace (front ++ inst :: rest) (front.length + 1) 0 state := by
  have runs := @run_straight env [] front (inst :: rest) state straight
    (by simpa using permits)
  simp only [List.nil_append, List.length_nil, Nat.zero_add] at runs
  rw [trace_run_add runs]
  apply List.mem_append_right
  simp [trace, address]

end Environment

/-! ## Accesses to the memory -/

/-- An access to the memory, with the low bytes of the word that a store
writes. -/
inductive Access where
  | load (address : Word) (bytes : Nat)
  | store (address : Word) (bytes : Nat) (value : Nat)
  deriving DecidableEq, Repr

/-- The access that an instruction makes in a state. -/
def Inst.access (state : State) : Inst -> Option Access
  | .load kind _ rs1 imm =>
      some (.load (effectiveAddress state rs1 imm) kind.width.bytes)
  | .store kind rs1 rs2 imm =>
      some (.store (effectiveAddress state rs1 imm) kind.width.bytes
        ((state.get rs2).toNat % 256 ^ kind.width.bytes))
  | _ => none

theorem Inst.access_of_base_none
    {inst : Inst}
    (noBase : inst.base = none)
    (state : State) :
    inst.access state = none := by
  cases inst <;> first | rfl | cases noBase

/-- The address of an access. -/
def Access.address : Access -> Word
  | load address _ | store address _ _ => address

/-- The accesses of a trace, apart from those that go through a register. -/
def accessesApart (reserved : Register) (visited : List (Inst × State)) :
    List Access :=
  visited.filterMap fun visit =>
    if visit.1.base = some reserved then none else visit.1.access visit.2

section AccessesApart

variable {reserved : Register}

@[simp] theorem accessesApart_append (first second : List (Inst × State)) :
    accessesApart reserved (first ++ second) =
      accessesApart reserved first ++ accessesApart reserved second := by
  simp [accessesApart]

/-- Instructions that access nothing, or something through the register. -/
theorem accessesApart_eq_nil
    {visited : List (Inst × State)}
    (hidden : ∀ visit ∈ visited,
      visit.1.base = none ∨ visit.1.base = some reserved) :
    accessesApart reserved visited = [] := by
  rw [accessesApart, List.filterMap_eq_nil_iff]
  intro visit member
  rcases hidden visit member with none | through
  · rw [if_neg (by simp [none]), Inst.access_of_base_none none]
  · rw [if_pos through]

theorem mem_code_of_mem_straightTrace
    {pc : Word}
    {state : State}
    {code : List Inst}
    {visit : Inst × State}
    (member : visit ∈ Environment.straightTrace pc state code) :
    visit.1 ∈ code := by
  induction code generalizing pc state with
  | nil => cases member
  | cons inst rest inductionHypothesis =>
      rcases List.mem_cons.mp member with rfl | further
      · exact List.mem_cons_self
      · exact List.mem_cons_of_mem _ (inductionHypothesis further)

/-- Computations access nothing. -/
theorem ComputesInto.accessesApart
    {registers : List Register}
    {code : List Inst}
    (computes : ComputesInto registers code)
    (pc : Word)
    (state : State) :
    accessesApart reserved (Environment.straightTrace pc state code) = [] :=
  accessesApart_eq_nil fun _ member =>
    Or.inl (computes.base_none _ (mem_code_of_mem_straightTrace member))

end AccessesApart

/-- The loads of a trace into a register. -/
def loadsInto (register : Register) (visited : List (Inst × State)) :
    List Access :=
  visited.filterMap fun visit =>
    if visit.1.target = some register then visit.1.access visit.2 else none

section LoadsInto

variable {register : Register}

@[simp] theorem loadsInto_append (first second : List (Inst × State)) :
    loadsInto register (first ++ second) =
      loadsInto register first ++ loadsInto register second := by
  simp [loadsInto]

/-- Instructions that access nothing, or have another target. -/
theorem loadsInto_eq_nil
    {visited : List (Inst × State)}
    (hidden : ∀ visit ∈ visited,
      visit.1.base = none ∨ visit.1.target ≠ some register) :
    loadsInto register visited = [] := by
  rw [loadsInto, List.filterMap_eq_nil_iff]
  intro visit member
  rcases hidden visit member with none | other
  · rw [Inst.access_of_base_none none, ite_self]
  · rw [if_neg other]

end LoadsInto

end RiscV
end Oxtra

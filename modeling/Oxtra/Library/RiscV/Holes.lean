import Oxtra.Library.RiscV.Program

/-!
# Code with a hole

Two pieces of code around some instructions that may be replaced by as many
others.  If no direct jump around the hole leads into the middle of it, then a
run does not depend on what the hole is filled with until it enters the hole.
-/

namespace Oxtra
namespace RiscV

/-- Half words that a direct jump goes over. -/
def Inst.directOffset : Inst -> Option Int
  | .branch _ _ _ offset => some offset.toInt
  | .jal _ offset => some offset.toInt
  | _ => none

/-- No direct jump of some code leads into a hole, except to its start. -/
def avoids (start size : Nat) : Nat -> List Inst -> Bool
  | _, [] => true
  | index, inst :: rest =>
      ((inst.directOffset.bind (jumpIndex index)).all fun target =>
        decide (target ≤ start ∨ start + size ≤ target)) &&
        avoids start size (index + 1) rest

theorem avoids_get
    {start size position index target : Nat}
    {code : List Inst}
    {inst : Inst}
    {offset : Int}
    (avoid : avoids start size position code = true)
    (fetch : code[index]? = some inst)
    (direct : inst.directOffset = some offset)
    (jumps : jumpIndex (position + index) offset = some target) :
    target ≤ start ∨ start + size ≤ target := by
  induction code generalizing position index with
  | nil => cases fetch
  | cons first rest inductionHypothesis =>
      simp only [avoids, Bool.and_eq_true] at avoid
      cases index with
      | zero =>
          obtain rfl := Option.some.inj fetch
          have outside := avoid.1
          rw [direct, Option.bind_some, ← Nat.add_zero position, jumps,
            Option.all_some, decide_eq_true_eq] at outside
          exact outside
      | succ index =>
          refine inductionHypothesis avoid.2 fetch ?_
          rwa [Nat.add_assoc, Nat.add_comm 1 index]

theorem avoids_append
    (start size index : Nat)
    (first second : List Inst) :
    avoids start size index (first ++ second) =
      (avoids start size index first &&
        avoids start size (index + first.length) second) := by
  induction first generalizing index with
  | nil => rfl
  | cons inst rest inductionHypothesis =>
      rw [List.cons_append, avoids, avoids, inductionHypothesis,
        List.length_cons, Bool.and_assoc, Nat.add_assoc, Nat.add_comm 1]

/-- A direct jump to some place that is not in the hole. -/
theorem avoids_jump
    {start size index target : Nat}
    {inst : Inst}
    {offset : Int}
    (direct : inst.directOffset = some offset)
    (reach : 2 * (index : Int) + offset = 2 * target)
    (outside : target ≤ start ∨ start + size ≤ target)
    {rest : List Inst}
    (avoid : avoids start size (index + 1) rest = true) :
    avoids start size index (inst :: rest) = true := by
  have jumps : jumpIndex index offset = some target := by
    rw [jumpIndex, reach, if_pos (by omega)]
    congr 1
    omega
  rw [avoids, direct, Option.bind_some, jumps, Option.all_some, avoid,
    decide_eq_true outside]
  rfl

/-- Nothing is in the middle of an empty hole. -/
theorem avoids_zero
    (start index : Nat)
    (code : List Inst) : avoids start 0 index code = true := by
  induction code generalizing index with
  | nil => rfl
  | cons inst rest inductionHypothesis =>
      rw [avoids, inductionHypothesis, Bool.and_true, Option.all_eq_true]
      intro target _
      exact decide_eq_true (Nat.le_total target start)

/-- Code in front of a hole and behind it. -/
structure Hole where
  front : List Inst
  size : Nat
  back : List Inst
  frontAvoids : avoids front.length size 0 front = true
  backAvoids : avoids front.length size (front.length + size) back = true

namespace Hole

variable (hole : Hole)

/-- The code with a filled hole. -/
def fill (inside : List Inst) : List Inst := hole.front ++ inside ++ hole.back

/-- An index that is not in the middle of the hole. -/
def Outside (index : Nat) : Prop :=
  index ≤ hole.front.length ∨ hole.front.length + hole.size ≤ index

variable {hole} {first second : List Inst}

theorem length_fill
    (full : first.length = hole.size) :
    (hole.fill first).length =
      hole.front.length + hole.size + hole.back.length := by
  rw [fill, List.length_append, List.length_append, full]

variable (firstFull : first.length = hole.size)
variable (secondFull : second.length = hole.size)

include firstFull secondFull

/-- The instructions around the hole. -/
theorem fill_getElem?
    {index : Nat}
    (outside : hole.Outside index)
    (notStart : index ≠ hole.front.length) :
    (hole.fill first)[index]? = (hole.fill second)[index]? := by
  unfold fill
  rcases Nat.lt_or_ge index hole.front.length with inFront | behind
  · rw [List.append_assoc, List.append_assoc,
      List.getElem?_append_left inFront, List.getElem?_append_left inFront]
  · have firstLength : (hole.front ++ first).length ≤ index := by
      rw [List.length_append]
      unfold Outside at outside
      omega
    have secondLength : (hole.front ++ second).length ≤ index := by
      rw [List.length_append]
      unfold Outside at outside
      omega
    rw [List.getElem?_append_right firstLength,
      List.getElem?_append_right secondLength, List.length_append,
      List.length_append, firstFull, secondFull]

omit secondFull in
/-- A direct jump around the hole does not lead into the middle of it. -/
theorem jump_outside
    {index target : Nat}
    {inst : Inst}
    {offset : Int}
    (outside : hole.Outside index)
    (notStart : index ≠ hole.front.length)
    (fetch : (hole.fill first)[index]? = some inst)
    (direct : inst.directOffset = some offset)
    (jumps : jumpIndex index offset = some target) :
    hole.Outside target := by
  unfold fill at fetch
  rcases Nat.lt_or_ge index hole.front.length with inFront | behind
  · rw [List.append_assoc, List.getElem?_append_left inFront] at fetch
    exact avoids_get hole.frontAvoids fetch direct (by rwa [Nat.zero_add])
  · have length : (hole.front ++ first).length =
        hole.front.length + hole.size := by
      rw [List.length_append, firstFull]
    have inBack : hole.front.length + hole.size ≤ index := by
      unfold Outside at outside
      omega
    rw [List.getElem?_append_right (by omega), length] at fetch
    exact avoids_get hole.backAvoids fetch direct
      (by rwa [Nat.add_sub_cancel' inBack])

/-- A step around the hole does not depend on what the hole is filled with, and
does not lead into the middle of it. -/
theorem step_outside
    (env : Environment)
    {index : Nat}
    (outside : hole.Outside index)
    (notStart : index ≠ hole.front.length)
    (state : State) :
    env.step (hole.fill first) index state =
        env.step (hole.fill second) index state ∧
      ∀ target next, env.step (hole.fill first) index state =
        .next target next -> hole.Outside target := by
  have fetch := fill_getElem? firstFull secondFull outside notStart
  have length : (hole.fill first).length = (hole.fill second).length := by
    rw [length_fill firstFull, length_fill secondFull]
  have further : hole.Outside (index + 1) := by
    unfold Outside at outside ⊢
    omega
  have sameTo : ∀ goal after, stepTo (hole.fill first) goal after =
      stepTo (hole.fill second) goal after := by
    intro goal after
    unfold stepTo
    rw [length]
  have reaches : ∀ {offset : Int} {after next : State} {target : Nat},
      (∀ goal, jumpIndex index offset = some goal -> hole.Outside goal) ->
        stepTo (hole.fill first) (jumpIndex index offset) after =
          .next target next -> hole.Outside target := by
    intro offset after next target avoid steps
    unfold stepTo at steps
    split at steps
    · rename_i goal found
      split at steps
      · obtain ⟨rfl, -⟩ := Step.next.inj steps
        exact avoid goal found
      · cases steps
    · cases steps
  cases found : (hole.fill first)[index]? with
  | none =>
      rw [found] at fetch
      simp only [Environment.step, found, ← fetch, true_and]
      exact fun target next steps => by cases steps
  | some inst =>
      have avoid : ∀ offset goal, inst.directOffset = some offset ->
          jumpIndex index offset = some goal -> hole.Outside goal :=
        fun offset goal direct jumps =>
          jump_outside firstFull outside notStart found direct jumps
      rw [found] at fetch
      simp only [Environment.step, found, ← fetch]
      split
      case isFalse => exact ⟨rfl, fun target next steps => by cases steps⟩
      cases inst with
      | branch kind rs1 rs2 offset =>
          simp only [Environment.execute, sameTo, true_and]
          intro target next steps
          split at steps
          · rw [← sameTo] at steps
            exact reaches (fun goal => avoid _ goal rfl) steps
          · obtain ⟨rfl, -⟩ := Step.next.inj steps
            exact further
      | jal rd offset =>
          simp only [Environment.execute, sameTo, true_and]
          intro target next steps
          rw [← sameTo] at steps
          exact reaches (fun goal => avoid _ goal rfl) steps
      | jalr rd rs1 offset =>
          simp only [Environment.execute, true_and]
          intro target next steps
          split at steps
          · obtain ⟨rfl, -⟩ := Step.next.inj steps
            exact further
          · cases steps
      | ecall => exact ⟨rfl, fun target next steps => by cases steps⟩
      | _ =>
          refine ⟨rfl, fun target next steps => ?_⟩
          obtain ⟨rfl, -⟩ := Step.next.inj steps
          exact further

end Hole

/-! ## Runs -/

namespace Hole

variable {hole : Hole}

/-- Every run from an index enters the hole in some state, whatever the hole is
filled with. -/
def Enters
    (hole : Hole)
    (env : Environment)
    (index : Nat)
    (state middle : State) : Prop :=
  ∃ steps, ∀ inside : List Inst, inside.length = hole.size ->
    env.run (hole.fill inside) steps index state =
      .next hole.front.length middle

/-- A run ends in front of the hole or behind it, or it enters the hole. -/
theorem run_or_enters
    (env : Environment)
    {first : List Inst}
    (full : first.length = hole.size)
    {steps index : Nat}
    {state : State}
    {exit : Exit}
    (outside : hole.Outside index)
    (ends : env.run (hole.fill first) steps index state = .exit exit) :
    (∀ inside : List Inst, inside.length = hole.size ->
      env.run (hole.fill inside) steps index state = .exit exit) ∨
      ∃ middle, hole.Enters env index state middle := by
  induction steps generalizing index state with
  | zero => cases ends
  | succ steps inductionHypothesis =>
      by_cases start : index = hole.front.length
      · refine Or.inr ⟨state, 0, fun inside _ => ?_⟩
        rw [Environment.run, start]
      have same : ∀ inside : List Inst, inside.length = hole.size ->
          env.step (hole.fill first) index state =
            env.step (hole.fill inside) index state :=
        fun inside fits =>
          (step_outside full fits env outside start state).1
      rw [Environment.run] at ends
      cases step : env.step (hole.fill first) index state with
      | exit first =>
          rw [step] at ends
          refine Or.inl fun inside fits => ?_
          rw [Environment.run, ← same inside fits, step]
          exact ends
      | next target next =>
          have further := (step_outside full full env outside start state).2
            target next step
          rw [step] at ends
          rcases inductionHypothesis further ends with ended | ⟨middle, steps,
            entered⟩
          · refine Or.inl fun inside fits => ?_
            rw [Environment.run, ← same inside fits, step]
            exact ended inside fits
          · refine Or.inr ⟨middle, steps + 1, fun inside fits => ?_⟩
            rw [Environment.run, ← same inside fits, step]
            exact entered inside fits

/-- What is in the hole runs as it does by itself. -/
theorem Enters.exits
    {env : Environment}
    {state middle : State}
    {inside : List Inst}
    {exit : Exit}
    (enters : hole.Enters env 0 state middle)
    (full : inside.length = hole.size)
    (exits : (env.shift hole.front.length).Exits inside middle exit)
    (notEnded : ∀ final, exit ≠ .ended final)
    (notStuck : exit ≠ .stuck) :
    env.Exits (hole.fill inside) state exit := by
  obtain ⟨steps, entered⟩ := enters
  obtain ⟨further, ends⟩ := exits
  have embedded := env.run_embed_exit hole.front inside hole.back
    (Nat.zero_le _) ends notEnded notStuck
  refine ⟨steps + further, ?_⟩
  rw [Environment.run_add, entered inside full]
  exact embedded

/-- A run with one filling of the hole is a run with every other, unless it
enters the hole. -/
theorem exits_or_enters
    {env : Environment}
    {state : State}
    {first : List Inst}
    {exit : Exit}
    (full : first.length = hole.size)
    (exits : env.Exits (hole.fill first) state exit) :
    (∀ inside : List Inst, inside.length = hole.size ->
      env.Exits (hole.fill inside) state exit) ∨
      ∃ middle, hole.Enters env 0 state middle := by
  obtain ⟨steps, ends⟩ := exits
  exact (run_or_enters env full (Or.inl (Nat.zero_le _)) ends).imp_left
    fun ended inside fits => ⟨steps, ended inside fits⟩

end Hole
end RiscV
end Oxtra

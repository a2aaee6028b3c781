import Oxtra.Library.RiscV.Semantics

/-!
# Runs of a piece of code

A piece of code is a list of instructions that starts at some address.
Branches and direct jumps stay inside of it.  An indirect jump asks what lies
outside: a function that returns behind the jump, or something that does not
come back, which ends the run.
-/

namespace Oxtra
namespace RiscV

/-! ## Steps -/

theorem zero_aligned : (0 : Word).toNat % 4 = 0 := rfl

/-- What a piece of code can not decide by itself. -/
structure Environment where
  /-- Address of the first instruction. -/
  origin : Word
  aligned : origin.toNat % 4 = 0
  /-- The state in which a function at an address returns, if it returns. -/
  call : Word -> State -> Option State
  /-- The memory accesses of an instruction go through. -/
  permits : Inst -> State -> Bool

namespace Environment

/-- Address of an instruction. -/
def address (env : Environment) (index : Nat) : Word :=
  env.origin + BitVec.ofNat 64 (4 * index)

theorem address_aligned (env : Environment) (index : Nat) :
    (env.address index).toNat % 4 = 0 := by
  have aligned := env.aligned
  simp only [address, BitVec.toNat_add, BitVec.toNat_ofNat]
  omega

/-- The same environment for code that starts some instructions later. -/
def shift (env : Environment) (count : Nat) : Environment :=
  { env with
    origin := env.address count
    aligned := env.address_aligned count }

@[simp] theorem shift_origin (env : Environment) (count : Nat) :
    (env.shift count).origin = env.address count := rfl

@[simp] theorem shift_address (env : Environment) (count index : Nat) :
    (env.shift count).address index = env.address (count + index) := by
  simp only [shift, address, BitVec.add_assoc, ← BitVec.ofNat_add,
    Nat.mul_add]

@[simp] theorem shift_call (env : Environment) (count : Nat) :
    (env.shift count).call = env.call := rfl

@[simp] theorem shift_permits (env : Environment) (count : Nat) :
    (env.shift count).permits = env.permits := rfl

@[simp] theorem shift_shift (env : Environment) (first second : Nat) :
    (env.shift first).shift second = env.shift (first + second) := by
  have origins := env.shift_address first second
  rw [shift, shift]
  congr 1

@[simp] theorem shift_zero (env : Environment) : env.shift 0 = env := by
  simp [shift, address]

end Environment

/-- How a run ends. -/
inductive Exit where
  /-- Control reached the end of the code. -/
  | ended (state : State)
  /-- Control left to an address. -/
  | left (target : Word) (state : State)
  /-- An access to the memory did not go through. -/
  | denied (state : State)
  /-- A direct jump missed the code, or there was a trap. -/
  | stuck

/-- One step leads to another instruction or ends the run. -/
inductive Step where
  | next (index : Nat) (state : State)
  | exit (exit : Exit)

/-- Target of a direct jump over some half words. -/
def jumpIndex (index : Nat) (offset : Int) : Option Nat :=
  let target := 2 * (index : Int) + offset
  if 0 ≤ target ∧ target % 2 = 0 then some (target / 2).toNat else none

/-- Continue after a direct jump. -/
def stepTo (code : List Inst) (target : Option Nat) (state : State) : Step :=
  match target with
  | some index => if index ≤ code.length then .next index state else .exit .stuck
  | none => .exit .stuck

/-- Address that an indirect jump goes to. -/
def jumpTarget (state : State) (base : Register) (offset : BitVec 12) : Word :=
  (state.get base + offset.signExtend 64) &&& ~~~(1 : Word)

/-- An even address is the target of a jump to it. -/
theorem clear_lowest_bit
    {address : Word}
    (even : address.toNat % 2 = 0) :
    address &&& ~~~(1 : Word) = address := by
  apply BitVec.eq_of_getLsbD_eq
  intro index inside
  rw [BitVec.getLsbD_and, BitVec.getLsbD_not]
  by_cases zero : index = 0
  · subst zero
    have clear : address.getLsbD 0 = false := by
      rw [BitVec.getLsbD, Nat.testBit_zero, decide_eq_false_iff_not]
      omega
    rw [clear]
    rfl
  · simp [inside, zero]

/-- A jump to an address of an instruction. -/
theorem jumpTarget_of_aligned
    {state : State}
    {base : Register}
    (aligned : (state.get base).toNat % 4 = 0) :
    jumpTarget state base 0 = state.get base := by
  rw [jumpTarget, show (0 : BitVec 12).signExtend 64 = 0#64 by decide,
    BitVec.add_zero]
  exact clear_lowest_bit (by omega)

namespace Environment

/-- Execute an instruction of the code. -/
def execute
    (env : Environment)
    (code : List Inst)
    (index : Nat)
    (state : State)
    (inst : Inst) : Step :=
  match inst with
  | .branch kind rs1 rs2 offset =>
      if kind.eval (state.get rs1) (state.get rs2) then
        stepTo code (jumpIndex index offset.toInt) state
      else
        .next (index + 1) state
  | .jal rd offset =>
      stepTo code (jumpIndex index offset.toInt)
        (state.set rd (env.address (index + 1)))
  | .jalr rd rs1 offset =>
      let target := jumpTarget state rs1 offset
      let linked := state.set rd (env.address (index + 1))
      match env.call target linked with
      | some returned => .next (index + 1) returned
      | none => .exit (.left target linked)
  | .ecall => .exit .stuck
  | _ => .next (index + 1) (inst.apply (env.address index) state)

def step
    (env : Environment)
    (code : List Inst)
    (index : Nat)
    (state : State) : Step :=
  match code[index]? with
  | none => .exit (.ended state)
  | some inst =>
      if env.permits inst state then
        env.execute code index state inst
      else
        .exit (.denied state)

theorem step_permitted
    {env : Environment}
    {code : List Inst}
    {index : Nat}
    {state : State}
    {inst : Inst}
    (fetch : code[index]? = some inst)
    (permitted : env.permits inst state = true) :
    env.step code index state = env.execute code index state inst := by
  simp only [step, fetch, if_pos permitted]

theorem step_denied
    {env : Environment}
    {code : List Inst}
    {index : Nat}
    {state : State}
    {inst : Inst}
    (fetch : code[index]? = some inst)
    (forbidden : ¬ env.permits inst state = true) :
    env.step code index state = .exit (.denied state) := by
  simp only [step, fetch, if_neg forbidden]

@[simp] theorem step_length
    (env : Environment)
    (code : List Inst)
    (state : State) :
    env.step code code.length state = .exit (.ended state) := by
  simp [step]

/-- An instruction does not end the code. -/
theorem execute_ne_ended
    (env : Environment)
    (code : List Inst)
    (index : Nat)
    (state final : State)
    (inst : Inst) :
    env.execute code index state inst ≠ .exit (.ended final) := by
  cases inst <;> simp only [execute, stepTo]
  all_goals (repeat' split) <;> simp

theorem execute_straight
    {env : Environment}
    {code : List Inst}
    {index : Nat}
    {state : State}
    {inst : Inst}
    (straight : inst.isStraight = true) :
    env.execute code index state inst =
      .next (index + 1) (inst.apply (env.address index) state) := by
  cases inst
  case jal | jalr | branch | ecall => simp [Inst.isStraight] at straight
  all_goals rfl

/-! ## Instructions at their addresses -/

end Environment

/-- The address and the state behind an instruction at some address. -/
def Inst.executeAt (pc : Word) (state : State) : Inst -> Word × State
  | .branch kind rs1 rs2 offset =>
      (if kind.eval (state.get rs1) (state.get rs2) then
        pc + BitVec.ofInt 64 (2 * offset.toInt)
      else
        pc + 4, state)
  | .jal rd offset =>
      (pc + BitVec.ofInt 64 (2 * offset.toInt), state.set rd (pc + 4))
  | .jalr rd rs1 offset =>
      (jumpTarget state rs1 offset, state.set rd (pc + 4))
  | inst => (pc + 4, inst.apply pc state)

namespace Environment

theorem address_succ (env : Environment) (index : Nat) :
    env.address (index + 1) = env.address index + 4 := by
  rw [address, address, Nat.mul_add, BitVec.ofNat_add, BitVec.add_assoc]
  rfl

/-- The target of a direct jump is the instruction at its offset. -/
theorem stepTo_address
    (env : Environment)
    {code : List Inst}
    {index target : Nat}
    {offset : Int}
    {state after : State}
    (steps : stepTo code (jumpIndex index offset) state =
      .next target after) :
    env.address target = env.address index + BitVec.ofInt 64 (2 * offset) ∧
      after = state := by
  unfold stepTo jumpIndex at steps
  simp only at steps
  split at steps
  · rename_i reached found
    split at found
    · rename_i valid
      split at steps
      · obtain ⟨rfl, rfl⟩ := Step.next.inj steps
        refine ⟨?_, rfl⟩
        have distance : (4 * reached : Int) = 4 * index + 2 * offset := by
          have place := Option.some.inj found
          omega
        rw [address, address, BitVec.add_assoc, ← BitVec.ofInt_natCast,
          ← BitVec.ofInt_natCast, ← BitVec.ofInt_add]
        push_cast
        rw [distance]
      · cases steps
    · cases found
  · cases steps

/-- An instruction that leads to another one of the code does what it does at
its address, unless it is a call. -/
theorem execute_next
    {env : Environment}
    {code : List Inst}
    {index target : Nat}
    {state after : State}
    {inst : Inst}
    (notCall : ∀ rd rs1 offset, inst ≠ .jalr rd rs1 offset)
    (steps : env.execute code index state inst = .next target after) :
    inst.executeAt (env.address index) state = (env.address target, after) := by
  cases inst
  case branch kind rs1 rs2 offset =>
    simp only [execute] at steps
    rw [Inst.executeAt]
    split at steps
    · rename_i taken
      obtain ⟨reached, rfl⟩ := env.stepTo_address steps
      rw [if_pos taken, reached]
    · rename_i notTaken
      obtain ⟨rfl, rfl⟩ := Step.next.inj steps
      rw [if_neg notTaken, address_succ]
  case jal rd offset =>
    obtain ⟨reached, rfl⟩ := env.stepTo_address steps
    rw [Inst.executeAt, reached, address_succ]
  case jalr rd rs1 offset => exact absurd rfl (notCall rd rs1 offset)
  case ecall => cases steps
  all_goals
    obtain ⟨rfl, rfl⟩ := Step.next.inj steps
    rw [address_succ]
    rfl

/-! ## Runs -/

/-- Run some steps, unless the run ends before. -/
def run
    (env : Environment)
    (code : List Inst) : Nat -> Nat -> State -> Step
  | 0, index, state => .next index state
  | steps + 1, index, state =>
      match env.step code index state with
      | .next index state => env.run code steps index state
      | .exit exit => .exit exit

/-- The run from the first instruction ends in this way. -/
def Exits
    (env : Environment)
    (code : List Inst)
    (state : State)
    (exit : Exit) : Prop :=
  ∃ steps, env.run code steps 0 state = .exit exit

theorem run_add
    (env : Environment)
    (code : List Inst)
    (first second index : Nat)
    (state : State) :
    env.run code (first + second) index state =
      match env.run code first index state with
      | .next index state => env.run code second index state
      | .exit exit => .exit exit := by
  induction first generalizing index state with
  | zero => simp [run]
  | succ first inductionHypothesis =>
      rw [Nat.add_right_comm, run, run]
      cases env.step code index state with
      | next index state => exact inductionHypothesis index state
      | exit exit => rfl

/-- A run ends in one way only. -/
theorem Exits.unique
    {env : Environment}
    {code : List Inst}
    {state : State}
    {first second : Exit}
    (firstExit : env.Exits code state first)
    (secondExit : env.Exits code state second) :
    first = second := by
  obtain ⟨firstSteps, firstRun⟩ := firstExit
  obtain ⟨secondSteps, secondRun⟩ := secondExit
  have one := env.run_add code firstSteps secondSteps 0 state
  have two := env.run_add code secondSteps firstSteps 0 state
  rw [firstRun] at one
  rw [secondRun, Nat.add_comm, one] at two
  simpa using two

/-! ## Code inside of other code -/

theorem stepTo_embed
    (before code after : List Inst)
    (index : Nat)
    (offset : Int)
    (state : State) :
    stepTo code (jumpIndex index offset) state = .exit .stuck ∨
      ∃ target, target ≤ code.length ∧
        stepTo code (jumpIndex index offset) state = .next target state ∧
        stepTo (before ++ code ++ after)
          (jumpIndex (before.length + index) offset) state =
            .next (before.length + target) state := by
  by_cases reachable : ∃ target, jumpIndex index offset = some target ∧
      target ≤ code.length
  · obtain ⟨target, jumps, inside⟩ := reachable
    refine .inr ⟨target, inside, by simp [stepTo, jumps, inside], ?_⟩
    have shifted : jumpIndex (before.length + index) offset =
        some (before.length + target) := by
      unfold jumpIndex at jumps ⊢
      simp only [Option.ite_none_right_eq_some, Option.some.injEq] at jumps ⊢
      omega
    simp only [stepTo, shifted, List.length_append]
    rw [if_pos (by omega)]
  · left
    cases jumps : jumpIndex index offset with
    | none => rfl
    | some target =>
        have outside : ¬ target ≤ code.length := fun inside =>
          reachable ⟨target, jumps, inside⟩
        simp [stepTo, outside]

/-- A step of a piece of code is a step of code that contains it. -/
theorem step_embed
    (env : Environment)
    (before code after : List Inst)
    {index : Nat}
    (inside : index < code.length)
    (state : State) :
    let shifted := env.shift before.length
    let whole := before ++ code ++ after
    shifted.step code index state = .exit .stuck ∨
      (∃ exit, shifted.step code index state = .exit exit ∧
        env.step whole (before.length + index) state = .exit exit) ∨
      ∃ target next, target ≤ code.length ∧
        shifted.step code index state = .next target next ∧
        env.step whole (before.length + index) state =
          .next (before.length + target) next := by
  intro shifted whole
  have fetch : whole[before.length + index]? = some code[index] := by
    simp only [whole, List.append_assoc]
    rw [List.getElem?_append_right (by omega), Nat.add_sub_cancel_left,
      List.getElem?_append_left inside, List.getElem?_eq_getElem inside]
  have fetchCode : code[index]? = some code[index] :=
    List.getElem?_eq_getElem inside
  generalize code[index] = inst at fetch fetchCode
  by_cases permitted : env.permits inst state = true
  · rw [step_permitted fetch permitted,
      step_permitted fetchCode (by simpa [shifted] using permitted)]
    have straight : ∀ next, ∃ target state, target ≤ code.length ∧
        Step.next (index + 1) next = .next target state ∧
        Step.next (before.length + index + 1) next =
          .next (before.length + target) state :=
      fun next => ⟨index + 1, next, inside, rfl, rfl⟩
    cases inst <;>
      simp only [execute, shifted, shift_address, shift_call, whole,
        ← Nat.add_assoc]
    case jal rd offset =>
      rcases stepTo_embed before code after index offset.toInt
          (state.set rd (env.address (before.length + index + 1)))
        with stuck | ⟨target, bound, here, there⟩
      · exact .inl stuck
      · exact .inr (.inr ⟨target, _, bound, here, there⟩)
    case jalr rd rs1 offset =>
      cases env.call (jumpTarget state rs1 offset)
          (state.set rd (env.address (before.length + index + 1))) with
      | some returned => exact .inr (.inr (straight returned))
      | none => exact .inr (.inl ⟨_, rfl, rfl⟩)
    case branch kind rs1 rs2 offset =>
      by_cases taken : kind.eval (state.get rs1) (state.get rs2) = true
      · simp only [if_pos taken]
        rcases stepTo_embed before code after index offset.toInt state
          with stuck | ⟨target, bound, here, there⟩
        · exact .inl stuck
        · exact .inr (.inr ⟨target, _, bound, here, there⟩)
      · simp only [if_neg taken]
        exact .inr (.inr (straight state))
    case ecall => exact .inl trivial
    all_goals exact .inr (.inr (straight _))
  · rw [step_denied fetch permitted,
      step_denied fetchCode (by simpa [shifted] using permitted)]
    exact .inr (.inl ⟨_, rfl, rfl⟩)

/-- If a piece of code runs to its end, then so does code that contains it,
and it is behind the piece afterwards. -/
theorem run_embed_ended
    (env : Environment)
    (before code after : List Inst)
    {steps index : Nat}
    {state final : State}
    (inside : index ≤ code.length)
    (ends : (env.shift before.length).run code steps index state =
      .exit (.ended final)) :
    ∃ taken, env.run (before ++ code ++ after) taken
        (before.length + index) state =
      .next (before.length + code.length) final := by
  induction steps generalizing index state with
  | zero => cases ends
  | succ steps inductionHypothesis =>
      by_cases atEnd : index = code.length
      · subst atEnd
        have final : state = final := by
          simpa [run, step] using ends
        exact ⟨0, by rw [final]; rfl⟩
      · rw [run] at ends
        rcases env.step_embed before code after
            (by omega : index < code.length) state with
          stuck | ⟨exit, here, there⟩ | ⟨target, next, bound, here, there⟩
        · rw [stuck] at ends
          cases ends
        · exfalso
          rw [here] at ends
          have fetch : code[index]? = some code[index] :=
            List.getElem?_eq_getElem (by omega)
          have exits : exit = .ended final := by simpa using ends
          rw [exits] at here
          by_cases permitted :
              (env.shift before.length).permits code[index] state = true
          · rw [step_permitted fetch permitted] at here
            exact execute_ne_ended _ _ _ _ _ _ here
          · rw [step_denied fetch permitted] at here
            cases here
        · rw [here] at ends
          obtain ⟨taken, reached⟩ := inductionHypothesis bound ends
          refine ⟨taken + 1, ?_⟩
          rw [run, there]
          exact reached

/-- If a run ends before the end of a piece of code, then it ends in the same
way inside of code that contains the piece. -/
theorem run_embed_exit
    (env : Environment)
    (before code after : List Inst)
    {steps index : Nat}
    {state : State}
    {exit : Exit}
    (inside : index ≤ code.length)
    (ends : (env.shift before.length).run code steps index state = .exit exit)
    (notEnded : ∀ final, exit ≠ .ended final)
    (notStuck : exit ≠ .stuck) :
    env.run (before ++ code ++ after) steps (before.length + index) state =
      .exit exit := by
  induction steps generalizing index state with
  | zero => cases ends
  | succ steps inductionHypothesis =>
      by_cases atEnd : index = code.length
      · subst atEnd
        exfalso
        apply notEnded state
        simpa [run, step] using ends.symm
      · rw [run] at ends ⊢
        rcases env.step_embed before code after
            (by omega : index < code.length) state with
          stuck | ⟨first, here, there⟩ | ⟨target, next, bound, here, there⟩
        · rw [stuck] at ends
          simp only [Step.exit.injEq] at ends
          exact absurd ends.symm notStuck
        · rw [here] at ends
          rw [there]
          exact ends
        · rw [here] at ends
          rw [there]
          exact inductionHypothesis bound ends

/-! ## Sequences -/

theorem Exits.append
    {env : Environment}
    {first second : List Inst}
    {state middle : State}
    {exit : Exit}
    (firstEnds : env.Exits first state (.ended middle))
    (secondExits : (env.shift first.length).Exits second middle exit)
    (notStuck : exit ≠ .stuck) :
    env.Exits (first ++ second) state exit := by
  obtain ⟨firstSteps, firstRun⟩ := firstEnds
  obtain ⟨secondSteps, secondRun⟩ := secondExits
  obtain ⟨taken, reached⟩ := env.run_embed_ended [] first second
    (Nat.zero_le _) (by simpa using firstRun)
  simp only [List.nil_append, List.length_nil, Nat.zero_add] at reached
  by_cases ended : ∃ final, exit = .ended final
  · obtain ⟨final, rfl⟩ := ended
    obtain ⟨takenNext, reachedEnd⟩ := env.run_embed_ended first second []
      (Nat.zero_le _) secondRun
    simp only [List.append_nil, Nat.add_zero] at reachedEnd
    refine ⟨taken + (takenNext + 1), ?_⟩
    rw [run_add, reached]
    simp only []
    rw [run_add, reachedEnd, ← List.length_append]
    simp only [run, step_length]
  · have exits := env.run_embed_exit first second [] (Nat.zero_le _)
      secondRun (fun final equal => ended ⟨final, equal⟩) notStuck
    simp only [List.append_nil, Nat.add_zero] at exits
    refine ⟨taken + secondSteps, ?_⟩
    rw [run_add, reached]
    exact exits

theorem Exits.append_left
    {env : Environment}
    {first : List Inst}
    (second : List Inst)
    {state : State}
    {exit : Exit}
    (firstExits : env.Exits first state exit)
    (notEnded : ∀ final, exit ≠ .ended final)
    (notStuck : exit ≠ .stuck) :
    env.Exits (first ++ second) state exit := by
  obtain ⟨steps, ends⟩ := firstExits
  have embedded := env.run_embed_exit [] first second (Nat.zero_le _)
    (by simpa using ends) notEnded notStuck
  exact ⟨steps, by simpa using embedded⟩

/-- Every instruction of some straight code may run. -/
def PermitsAll (env : Environment) (state : State) : List Inst -> Prop
  | [] => True
  | inst :: rest =>
      env.permits inst state = true ∧
        (env.shift 1).PermitsAll (inst.apply env.origin state) rest

/-- Nothing is forbidden. -/
def PermitsEverything (env : Environment) : Prop :=
  ∀ inst state, env.permits inst state = true

theorem PermitsEverything.shift
    {env : Environment}
    (permits : env.PermitsEverything)
    (count : Nat) :
    (env.shift count).PermitsEverything :=
  fun inst state => permits inst state

/-- Instructions that may run in every state. -/
theorem permitsAll_of_forall
    {env : Environment}
    {code : List Inst}
    (permits : ∀ inst ∈ code, ∀ state, env.permits inst state = true)
    (state : State) :
    env.PermitsAll state code := by
  induction code generalizing env state with
  | nil => trivial
  | cons inst rest inductionHypothesis =>
      refine ⟨permits inst List.mem_cons_self state, inductionHypothesis ?_ _⟩
      exact fun other member => permits other (List.mem_cons_of_mem _ member)

theorem PermitsEverything.permitsAll
    {env : Environment}
    (permits : env.PermitsEverything)
    (state : State)
    (code : List Inst) :
    env.PermitsAll state code :=
  permitsAll_of_forall (fun inst _ => permits inst) state

/-- Code without branches and jumps runs to its end, inside of other code. -/
theorem run_straight
    {env : Environment}
    (before code after : List Inst)
    {state : State}
    (straight : ∀ inst ∈ code, inst.isStraight = true)
    (permits : (env.shift before.length).PermitsAll state code) :
    env.run (before ++ code ++ after) code.length before.length state =
      .next (before.length + code.length)
        (applyAll (env.address before.length) state code) := by
  induction code generalizing before state with
  | nil => rfl
  | cons inst rest inductionHypothesis =>
      obtain ⟨permitsHere, permitsRest⟩ := permits
      rw [shift_permits] at permitsHere
      rw [shift_shift, shift_origin] at permitsRest
      have fetch : (before ++ inst :: rest ++ after)[before.length]? =
          some inst := by simp
      have restRuns := inductionHypothesis (before ++ [inst])
        (fun inst member => straight inst (List.mem_cons_of_mem _ member))
        (by simpa only [List.length_append, List.length_singleton] using
          permitsRest)
      have nextAddress : env.address (before.length + 1) =
          env.address before.length + 4 := by
        rw [address, address, Nat.mul_add, BitVec.ofNat_add, BitVec.add_assoc]
        rfl
      rw [List.length_cons, run, step_permitted fetch permitsHere,
        execute_straight (straight inst (by simp))]
      simpa [nextAddress, Nat.add_comm, Nat.add_left_comm] using restRuns

/-- Code without branches and jumps runs to its end. -/
theorem exits_straight
    {env : Environment}
    {state : State}
    {code : List Inst}
    (straight : ∀ inst ∈ code, inst.isStraight = true)
    (permits : env.PermitsAll state code) :
    env.Exits code state (.ended (applyAll env.origin state code)) := by
  have runs := @run_straight env [] code [] state straight
    (by simpa using permits)
  simp only [List.nil_append, List.append_nil, List.length_nil,
    Nat.zero_add] at runs
  refine ⟨code.length + 1, ?_⟩
  rw [run_add, runs]
  simp [run, address]

/-- An indirect jump behind straight code leaves, unless it is a call. -/
theorem exits_jump_of_noCall
    {env : Environment}
    {state : State}
    {code after : List Inst}
    {rd rs1 : Register}
    {offset : BitVec 12}
    (straight : ∀ inst ∈ code, inst.isStraight = true)
    (permits : env.PermitsEverything)
    (noCall : env.call
      (jumpTarget (applyAll env.origin state code) rs1 offset)
      ((applyAll env.origin state code).set rd
        (env.address (code.length + 1))) = none) :
    env.Exits (code ++ .jalr rd rs1 offset :: after) state
      (.left (jumpTarget (applyAll env.origin state code) rs1 offset)
        ((applyAll env.origin state code).set rd
          (env.address (code.length + 1)))) := by
  have runs := @run_straight env [] code (.jalr rd rs1 offset :: after) state
    straight (by simpa using permits.permitsAll state code)
  simp only [List.nil_append, List.length_nil, Nat.zero_add] at runs
  have start : env.address 0 = env.origin := by simp [address]
  have jumps : env.step (code ++ .jalr rd rs1 offset :: after) code.length
      (applyAll env.origin state code) =
        .exit (.left (jumpTarget (applyAll env.origin state code) rs1 offset)
          ((applyAll env.origin state code).set rd
            (env.address (code.length + 1)))) := by
    have fetch : (code ++ .jalr rd rs1 offset :: after)[code.length]? =
        some (.jalr rd rs1 offset) := by simp
    rw [step_permitted fetch (permits _ _)]
    simp only [execute, noCall]
  rw [start] at runs
  refine ⟨code.length + 1, ?_⟩
  rw [run_add, runs]
  simp only [run, jumps]

/-- An indirect jump leaves where nothing is called. -/
theorem exits_jump
    {env : Environment}
    {state : State}
    {code after : List Inst}
    {rd rs1 : Register}
    {offset : BitVec 12}
    (straight : ∀ inst ∈ code, inst.isStraight = true)
    (permits : env.PermitsEverything)
    (noCall : env.call = fun _ _ => none) :
    env.Exits (code ++ .jalr rd rs1 offset :: after) state
      (.left (jumpTarget (applyAll env.origin state code) rs1 offset)
        ((applyAll env.origin state code).set rd
          (env.address (code.length + 1)))) :=
  exits_jump_of_noCall straight permits (by rw [noCall])

/-! ## Branches over code -/

/-- A branch that is taken goes behind the code that it is in front of. -/
theorem exits_branch_taken
    {env : Environment}
    {state : State}
    {kind : Branch}
    {rs1 rs2 : Register}
    {offset : BitVec 12}
    {body : List Inst}
    (permits : env.PermitsEverything)
    (taken : kind.eval (state.get rs1) (state.get rs2) = true)
    (reach : offset.toInt = 2 * (1 + body.length)) :
    env.Exits (.branch kind rs1 rs2 offset :: body) state (.ended state) := by
  have target : jumpIndex 0 offset.toInt = some (body.length + 1) := by
    rw [jumpIndex, reach, if_pos (by omega)]
    congr 1
    omega
  have first : env.step (.branch kind rs1 rs2 offset :: body) 0 state =
      .next (body.length + 1) state := by
    rw [step_permitted rfl (permits _ _), execute, if_pos taken, target, stepTo,
      List.length_cons, if_pos (by omega)]
  refine ⟨2, ?_⟩
  rw [run, first]
  simp only [run]
  rw [show body.length + 1 = (Inst.branch kind rs1 rs2 offset :: body).length
    from rfl, step_length]

/-- A branch that is not taken goes into the code that it is in front of. -/
theorem exits_branch_skipped
    {env : Environment}
    {state : State}
    {kind : Branch}
    {rs1 rs2 : Register}
    {offset : BitVec 12}
    {body : List Inst}
    {exit : Exit}
    (permits : env.PermitsEverything)
    (skipped : ¬ kind.eval (state.get rs1) (state.get rs2) = true)
    (exits : (env.shift 1).Exits body state exit)
    (notStuck : exit ≠ .stuck) :
    env.Exits (.branch kind rs1 rs2 offset :: body) state exit := by
  have first : env.Exits [.branch kind rs1 rs2 offset] state (.ended state) := by
    refine ⟨2, ?_⟩
    rw [run, step_permitted rfl (permits _ _), execute, if_neg skipped]
    rfl
  exact first.append exits notStuck

/-- Code that a branch skips, and that another branch behind further code goes
back to. -/
theorem exits_branch_back
    {env : Environment}
    {state middle : State}
    {kind backKind : Branch}
    {rs1 rs2 backRs1 backRs2 : Register}
    {offset back : BitVec 12}
    {body further : List Inst}
    {exit : Exit}
    (permits : env.PermitsEverything)
    (taken : kind.eval (state.get rs1) (state.get rs2) = true)
    (reach : offset.toInt = 2 * (1 + body.length))
    (furtherEnds : (env.shift (1 + body.length)).Exits further state
      (.ended middle))
    (backTaken :
      backKind.eval (middle.get backRs1) (middle.get backRs2) = true)
    (backReach : back.toInt = -(2 * (body.length + further.length)))
    (exits : (env.shift 1).Exits body middle exit)
    (notEnded : ∀ final, exit ≠ .ended final)
    (notStuck : exit ≠ .stuck) :
    env.Exits (.branch kind rs1 rs2 offset :: body ++ further ++
      [.branch backKind backRs1 backRs2 back]) state exit := by
  let skip : Inst := .branch kind rs1 rs2 offset
  let again : Inst := .branch backKind backRs1 backRs2 back
  let code := skip :: body ++ further ++ [again]
  let last := (skip :: body).length + further.length
  have length : code.length = last + 1 := by
    simp only [code, last, List.length_append, List.length_singleton]
  have first : env.step code 0 state = .next (skip :: body).length state := by
    have target : jumpIndex 0 offset.toInt = some (skip :: body).length := by
      rw [jumpIndex, reach, if_pos (by omega)]
      congr 1
      simp only [List.length_cons]
      omega
    rw [step_permitted rfl (permits _ _), execute, if_pos taken, target,
      stepTo, if_pos (by omega)]
  obtain ⟨furtherSteps, furtherRun⟩ := furtherEnds
  rw [Nat.add_comm 1] at furtherRun
  obtain ⟨evaluating, evaluated⟩ := env.run_embed_ended (skip :: body) further
    [again] (Nat.zero_le _) furtherRun
  have returns : env.step code last middle = .next 1 middle := by
    have fetch : code[last]? = some again := by
      have inFront : (skip :: body ++ further).length = last :=
        List.length_append
      simp only [code]
      rw [List.getElem?_append_right inFront.le, inFront, Nat.sub_self]
      rfl
    have target : jumpIndex last back.toInt = some 1 := by
      simp only [jumpIndex, backReach, last, List.length_cons]
      rw [if_pos (by omega)]
      congr 1
      omega
    rw [step_permitted fetch (permits _ _), execute, if_pos backTaken, target,
      stepTo, if_pos (by omega)]
  obtain ⟨steps, bodyRun⟩ := exits
  have leaves := env.run_embed_exit [skip] body (further ++ [again])
    (Nat.zero_le _) bodyRun notEnded notStuck
  have whole : [skip] ++ body ++ (further ++ [again]) = code := by
    simp [code]
  rw [whole] at leaves
  refine ⟨1 + (evaluating + (1 + steps)), ?_⟩
  change env.run code _ 0 state = _
  rw [run_add, run, first]
  simp only [run]
  rw [run_add, show (skip :: body).length = (skip :: body).length + 0 from rfl,
    evaluated]
  simp only []
  rw [run_add, run, show (skip :: body).length + further.length = last from rfl,
    returns]
  exact leaves

/-! ## Loops -/

/-- A branch behind code that goes back to its start. -/
theorem run_branch_back
    {env : Environment}
    {state middle : State}
    {kind : Branch}
    {rs1 rs2 : Register}
    {back : BitVec 12}
    {body : List Inst}
    (permits : env.PermitsEverything)
    (ends : env.Exits body state (.ended middle))
    (taken : kind.eval (middle.get rs1) (middle.get rs2) = true)
    (reach : back.toInt = -(2 * body.length)) :
    ∃ steps, env.run (body ++ [.branch kind rs1 rs2 back]) steps 0 state =
      .next 0 middle := by
  let code := body ++ [.branch kind rs1 rs2 back]
  obtain ⟨steps, runs⟩ := ends
  obtain ⟨passing, passed⟩ := env.run_embed_ended [] body
    [.branch kind rs1 rs2 back] (Nat.zero_le _) (by simpa using runs)
  simp only [List.nil_append, List.length_nil, Nat.zero_add] at passed
  have fetch : code[body.length]? = some (.branch kind rs1 rs2 back) := by
    rw [List.getElem?_append_right le_rfl, Nat.sub_self]
    rfl
  have target : jumpIndex body.length back.toInt = some 0 := by
    simp only [jumpIndex, reach]
    rw [if_pos (by omega)]
    congr 1
    omega
  have returns : env.step code body.length middle = .next 0 middle := by
    rw [step_permitted fetch (permits _ _), execute, if_pos taken, target,
      stepTo, if_pos (Nat.zero_le _)]
  refine ⟨passing + 1, ?_⟩
  rw [run_add, passed]
  simp only [run]
  rw [returns]

/-- A loop: every pass goes back to the start with the next state, and the last
one exits. -/
theorem exits_iterate
    {env : Environment}
    {code : List Inst}
    {next : State -> State}
    {exit : Exit}
    {count : Nat}
    {state : State}
    (passes : ∀ pass < count, ∃ steps,
      env.run code steps 0 (next^[pass] state) =
        .next 0 (next^[pass + 1] state))
    (exits : env.Exits code (next^[count] state) exit) :
    env.Exits code state exit := by
  induction count with
  | zero => exact exits
  | succ count inductionHypothesis =>
      apply inductionHypothesis fun pass before =>
        passes pass (Nat.lt_succ_of_lt before)
      obtain ⟨steps, passed⟩ := passes count (Nat.lt_succ_self count)
      obtain ⟨more, ends⟩ := exits
      refine ⟨steps + more, ?_⟩
      rw [run_add, passed]
      exact ends

end Environment

end RiscV
end Oxtra

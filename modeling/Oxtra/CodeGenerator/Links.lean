import Oxtra.CodeGenerator.Chaining
import Oxtra.Instructions.ConditionalJumps
import Oxtra.Library.RiscV.Holes

/-!
# Linked jumps

A direct jump of the guest ends in a slot, which calls `reroute_static` until
it is linked to the code of its address.  A conditional jump enters the slot
in the same states, whatever is in it.
-/

namespace Oxtra

open RiscV
open Encoding
open Helper

namespace CodeGenerator

/-! ## Slots -/

/-- What `update_basic_block` leaves of the call for an address. -/
def linkSlot (start ptr target : Word) : List Inst :=
  jumpCode start target ++ (appendEob ptr).drop (jumpCode start target).length

@[simp] theorem length_appendEob (ptr : Word) :
    (appendEob ptr).length = batchSize := rfl

@[simp] theorem length_linkSlot (start ptr target : Word) :
    (linkSlot start ptr target).length = batchSize := by
  have few := length_jumpCode_le start target
  rw [linkSlot, List.length_append, List.length_drop, length_appendEob]
  omega

/-- Where the call of `reroute_static` goes. -/
def rerouteTarget (state : State) : Word :=
  jumpTarget state jumpTableAddress
    (JumpTable.Entry.rerouteStatic.offset.setWidth 12)

theorem rerouteTarget_of_even
    {state : State}
    (even : (state.get jumpTableAddress).toNat % 2 = 0) :
    rerouteTarget state = JumpTable.Entry.rerouteStatic.address state := by
  have offset := JumpTable.Entry.rerouteStatic.offset_toNat
  rw [rerouteTarget, jumpTarget,
    show ((JumpTable.Entry.rerouteStatic.offset.setWidth 12).signExtend 64 :
      Word) = JumpTable.Entry.rerouteStatic.offset.setWidth 64 by decide]
  apply clear_lowest_bit
  rw [BitVec.toNat_add, BitVec.toNat_setWidth]
  omega

/-- An odd address of the table does not lead to an entry of it. -/
theorem call_rerouteTarget
    {runtime : JumpTable.Runtime}
    (noReturn : ∀ state, runtime .rerouteStatic state = none)
    {state linked : State}
    (table : linked.get jumpTableAddress = state.get jumpTableAddress) :
    JumpTable.call runtime (rerouteTarget state) linked = none := by
  rcases Nat.mod_two_eq_zero_or_one (state.get jumpTableAddress).toNat with
    even | odd
  · have entered := JumpTable.call_entry runtime .rerouteStatic linked
    rw [table] at entered
    rw [rerouteTarget_of_even even]
    exact entered.trans (noReturn linked)
  · have lowest : (rerouteTarget state).getLsbD 0 = false := by
      simp [rerouteTarget, jumpTarget]
    rw [BitVec.getLsbD, Nat.testBit_zero, decide_eq_false_iff_not] at lowest
    have tableLt := (state.get jumpTableAddress).isLt
    unfold JumpTable.call
    rw [table]
    dsimp only
    rw [if_neg]
    rw [BitVec.toNat_sub]
    omega

section Leave

variable {runtime : JumpTable.Runtime} {env : Environment} {state : State}
variable (permits : env.PermitsEverything)

include permits

/-- The call of `reroute_static` for an address leaves in every state. -/
theorem appendEob_exits
    (noReturn : ∀ state, runtime .rerouteStatic state = none)
    (ptr : Word) :
    (JumpTable.dispatch runtime env).Exits (appendEob ptr) state
      (.left (rerouteTarget state)
        ((state.set addressDestination ptr).set .ra
          (env.address batchSize))) := by
  have straight : ∀ inst ∈ loadAddress ptr addressDestination,
      inst.isStraight = true := by
    simp only [loadAddress, List.forall_mem_cons]
    exact ⟨rfl, rfl, rfl, rfl, rfl, rfl, rfl, rfl, by simp⟩
  have permitsAll : (JumpTable.dispatch runtime env).PermitsEverything :=
    permits
  have applied : applyAll (JumpTable.dispatch runtime env).origin state
      (loadAddress ptr addressDestination) =
        state.set addressDestination ptr :=
    applyAll_loadAddress _ _ _ (by decide)
  have table : (state.set addressDestination ptr).get jumpTableAddress =
      state.get jumpTableAddress := State.set_get_of_ne _ _ (by decide)
  have reached : jumpTarget (state.set addressDestination ptr)
      jumpTableAddress (JumpTable.Entry.rerouteStatic.offset.setWidth 12) =
        rerouteTarget state := by
    rw [rerouteTarget, jumpTarget, jumpTarget, table]
  have exits := @Environment.exits_jump_of_noCall
    (JumpTable.dispatch runtime env) state
    (loadAddress ptr addressDestination) [] .ra jumpTableAddress
    (JumpTable.Entry.rerouteStatic.offset.setWidth 12) straight permitsAll
    (by
      rw [applied, reached]
      refine call_rerouteTarget noReturn ?_
      rw [State.set_get_of_ne _ _ (by decide), table])
  rw [applied, reached] at exits
  exact exits

section Jump

variable {target : Word}
variable (targetAligned : target.toNat % 4 = 0)
variable (outside : 4 * JumpTable.tableAddress.length ≤
  (target - state.get jumpTableAddress).toNat)

include targetAligned outside

/-- A jump to an address outside of the table, behind code that loads a part of
it. -/
theorem jump_exits
    {loading : List Inst}
    {value : Word}
    {lower : BitVec 12}
    (straight : ∀ inst ∈ loading, inst.isStraight = true)
    (applied : applyAll env.origin state loading =
      state.set addressDestination value)
    (sum : value + lower.signExtend 64 = target)
    (after : List Inst) :
    ∃ final, (JumpTable.dispatch runtime env).Exits
        (loading ++ .jalr .zero addressDestination lower :: after) state
        (.left target final) ∧
      Unchanged [addressDestination] state final := by
  let loaded := state.set addressDestination value
  have permitsAll : (JumpTable.dispatch runtime env).PermitsEverything :=
    permits
  have reached : jumpTarget loaded addressDestination lower = target := by
    rw [jumpTarget, State.set_get_self _ _ (by decide), sum,
      clear_lowest_bit (by omega)]
  have noCall : ∀ link,
      JumpTable.call runtime target (loaded.set .zero link) = none := by
    intro link
    have sameTable : (loaded.set .zero link).get jumpTableAddress =
        state.get jumpTableAddress := by
      rw [State.set_zero_get, State.set_get_of_ne _ _ (by decide)]
    unfold JumpTable.call
    rw [sameTable]
    dsimp only
    split
    · rw [List.getElem?_eq_none (by omega)]
    · rfl
  have loads : applyAll (JumpTable.dispatch runtime env).origin state loading =
      loaded := applied
  have exits := @Environment.exits_jump_of_noCall
    (JumpTable.dispatch runtime env) state loading after .zero
    addressDestination lower straight permitsAll
    (by
      rw [loads, reached]
      exact noCall _)
  rw [loads, reached] at exits
  refine ⟨_, exits, Unchanged.of_mem (fun register other => ?_) rfl⟩
  rw [State.set_zero_get, State.set_get_of_ne _ _ (by simpa using other)]

/-- The far jump goes to its address. -/
theorem farJump_leaves
    (after : List Inst) :
    ∃ final, (JumpTable.dispatch runtime env).Exits (farJump target ++ after)
        state (.left target final) ∧
      Unchanged [addressDestination] state final := by
  obtain ⟨final, exits, unchanged⟩ := @jump_exits runtime env state permits
    target targetAligned outside (loadImmediate target addressDestination)
    target 0 (loadImmediate_computesInto target addressDestination).straight
    (applyAll_loadImmediate (by decide) _ _ _) (by simp) after
  refine ⟨final, ?_, unchanged⟩
  rw [farJump, List.append_assoc]
  exact exits

/-- The code behind the jump of a linked slot is not reached. -/
theorem jumpCode_leaves
    (inReach : ¬ OutOfReach (target - env.origin).toInt)
    (after : List Inst) :
    ∃ final, (JumpTable.dispatch runtime env).Exits
        (jumpCode env.origin target ++ after) state (.left target final) ∧
      Unchanged [addressDestination] state final := by
  unfold jumpCode
  split
  case isFalse => exact farJump_leaves permits targetAligned outside after
  rename_i near
  have distance : nearDistance (target - env.origin) =
      target - env.origin := by
    rw [nearDistance_eq_iff]
    have range := (isNear_iff _).mp near
    unfold OutOfReach at inReach
    omega
  have sum : env.origin + nearDistance (target - env.origin) = target := by
    rw [distance, add_comm]
    exact sub_add_cancel _ _
  rw [nearDistance, ← BitVec.add_assoc] at sum
  exact @jump_exits runtime env state permits target targetAligned outside
    [auipc addressDestination
      ((upperPart (target - env.origin)).setWidth 32)] _ _
    (by simp [auipc, Inst.isStraight]) rfl sum after

end Jump

end Leave

/-- What is in the slot of a jump to an address: the call for the address, or a
jump to code that serves it. -/
inductive Slot
    (serves : Word -> Word -> Prop)
    (position ptr : Word) : List Inst -> Prop where
  | calls : Slot serves position ptr (appendEob ptr)
  | linked {target : Word}
      (served : serves target ptr)
      (inReach : ¬ OutOfReach (target - position).toInt) :
      Slot serves position ptr (linkSlot position ptr target)

theorem Slot.mono
    {serves other : Word -> Word -> Prop}
    {position ptr : Word}
    {code : List Inst}
    (slot : Slot serves position ptr code)
    (implies : ∀ target pc, serves target pc -> other target pc) :
    Slot other position ptr code := by
  cases slot with
  | calls => exact .calls
  | linked served inReach => exact .linked (implies _ _ served) inReach

theorem Slot.length_eq
    {serves : Word -> Word -> Prop}
    {position ptr : Word}
    {code : List Inst}
    (slot : Slot serves position ptr code) : code.length = batchSize := by
  cases slot with
  | calls => rfl
  | linked => exact length_linkSlot _ _ _

end CodeGenerator

/-! ## Conditional jumps around a slot -/

namespace Jcc

open CodeGenerator (batchSize)

/-- The code of a conditional jump with a marked slot. -/
def marked (condition : Condition) : List Inst :=
  execute (List.replicate batchSize Encoding.nop) condition

/-- The code in front of the slot. -/
def front (condition : Condition) : List Inst :=
  (marked condition).takeWhile (· ≠ Encoding.nop)

/-- The code behind the slot. -/
def back (condition : Condition) : List Inst :=
  (marked condition).drop ((front condition).length + batchSize)

theorem front_avoids (condition : Condition) :
    avoids (front condition).length batchSize 0 (front condition) = true := by
  cases condition <;> decide +kernel

theorem back_avoids (condition : Condition) :
    avoids (front condition).length batchSize
      ((front condition).length + batchSize) (back condition) = true := by
  cases condition <;> decide +kernel

/-- The code around the slot. -/
def hole (condition : Condition) : Hole where
  front := front condition
  size := batchSize
  back := back condition
  frontAvoids := front_avoids condition
  backAvoids := back_avoids condition

/-- The code of a conditional jump depends on the length of its slot only,
apart from the slot itself. -/
theorem execute_eq_fill
    {slot : List Inst}
    (full : slot.length = batchSize)
    (condition : Condition) :
    execute slot condition = (hole condition).fill slot := by
  obtain ⟨get, rfl⟩ : ∃ get : Fin 9 -> Inst, slot = List.ofFn get := by
    have short : slot.length = 9 := full
    refine ⟨fun index => slot.get (index.cast short.symm), ?_⟩
    rw [← List.ofFn_congr short slot.get, List.ofFn_get]
  cases condition <;> rfl

/-- A conditional jump enters its slot if its condition holds, whatever is in
the slot, and runs to its end otherwise. -/
theorem hole_entered
    {runtime : JumpTable.Runtime}
    {env : Environment}
    {state : State}
    {flags : Flag -> Bool}
    (permits : env.PermitsEverything)
    (noReturn : ∀ state, runtime .rerouteStatic state = none)
    (aligned : TableAligned state)
    (lazyFlags : LazyFlags runtime state flags)
    (condition : Condition) :
    ∃ middle, Unchanged jumpScratch state middle ∧
      if condition.holds flags then
        (hole condition).Enters (JumpTable.dispatch runtime env) 0 state middle
      else
        ∀ slot : List Inst, slot.length = batchSize ->
          (JumpTable.dispatch runtime env).Exits (execute slot condition) state
            (.ended middle) := by
  have jumps : ∀ ptr, JumpsIf (JumpTable.dispatch runtime env)
      (execute (appendEob ptr) condition) ptr state
      (condition.holds flags) := fun ptr =>
    execute_jumpsIf (show (appendEob ptr).length < 1000 from
      (by decide : 9 < 1000)) (fun env permits before aligned =>
      appendEob_jumps permits noReturn aligned ptr) permits aligned lazyFlags
      condition
  have full : (appendEob 0).length = batchSize := rfl
  have called : ∀ {middle}, (hole condition).Enters
      (JumpTable.dispatch runtime env) 0 state middle ->
        (JumpTable.dispatch runtime env).Exits
          ((hole condition).fill (appendEob 0)) state
          (.left (CodeGenerator.rerouteTarget middle)
            ((middle.set addressDestination 0).set .ra
              ((env.shift (front condition).length).address batchSize))) :=
    fun enters => enters.exits full
      (@CodeGenerator.appendEob_exits _
        (env.shift (front condition).length) _ permits noReturn 0)
      (by simp) (by simp)
  obtain ⟨after, unchanged, outcome⟩ := jumps 0
  cases holds : condition.holds flags with
  | false =>
      rw [holds, if_neg Bool.false_ne_true] at outcome
      rw [execute_eq_fill full] at outcome
      rcases Hole.exits_or_enters full outcome with ended | ⟨middle, enters⟩
      · refine ⟨after, unchanged, ?_⟩
        rw [if_neg Bool.false_ne_true]
        intro slot fits
        rw [execute_eq_fill fits]
        exact ended slot fits
      · cases outcome.unique (called enters)
  | true =>
      rw [holds, if_pos rfl, execute_eq_fill full] at outcome
      obtain ⟨left, reached⟩ := outcome
      rcases Hole.exits_or_enters full left with ended | ⟨middle, enters⟩
      · -- The same run would have loaded every other address as well.
        obtain ⟨other, -, otherLeft⟩ := jumps 1
        rw [holds, if_pos rfl, execute_eq_fill rfl] at otherLeft
        have same := (ended (appendEob 1) rfl).unique otherLeft.1
        simp only [Exit.left.injEq, true_and] at same
        rw [same, otherLeft.2] at reached
        exact absurd reached (by decide)
      · have same := left.unique (called enters)
        simp only [Exit.left.injEq] at same
        refine ⟨middle, ⟨fun register outside => ?_, fun address behind => ?_⟩,
          ?_⟩
        · rw [← unchanged.registers register outside, same.2,
            State.set_get_of_ne, State.set_get_of_ne]
          all_goals
            rintro rfl
            exact outside (by decide)
        · rw [← unchanged.memory address behind, same.2]
          rfl
        · rw [if_pos rfl]
          exact enters

end Jcc
end Oxtra

import Oxtra.Guest.Moves

/-!
# Conditions of the guest

The code of the instructions with a condition evaluates the flags that their
class requires.  If these are known, the condition holds on the host as it does
on the machine.
-/

namespace Oxtra
namespace Guest

open RiscV
open Helper
open FlagInfo
open Instruction
open Fadec (Operand OperandSize)

/-- A condition depends on the flags only that it requires. -/
theorem holds_congr
    {condition : Condition}
    {first second : Flag -> Bool}
    (same : ∀ flag ∈ condition.require, first flag = second flag) :
    condition.holds first = condition.holds second := by
  cases condition <;>
    simp (disch := decide) only [Condition.holds, same]

variable {layout : Layout} {known : Flag -> Prop} {machine after : Machine}
variable {inst : Instruction} {state final : State}
variable {runtime : JumpTable.Runtime} {env : Environment}
variable {condition : Condition}

/-- The lazy information of a state has values, which agree with the flags of
the machine about a condition whose flags are known. -/
theorem Represents.conditionHolds
    (represents : Represents layout known machine state)
    (runtime : JumpTable.Runtime)
    (required : ∀ flag ∈ condition.require, known flag)
    {other : State}
    (same : fields other = fields state) :
    ∃ values, LazyFlags runtime other values ∧
      condition.holds values = condition.holds machine.flags := by
  obtain ⟨values, evaluated, right⟩ := represents.lazyFlags
  rw [← same] at evaluated
  refine ⟨values, ⟨evaluated .zero, evaluated .sign, evaluated .parity, ?_, ?_⟩,
    holds_congr fun flag member => right flag (required flag member)⟩
  · obtain ⟨entry, stored, value⟩ := evaluated .carry
    exact ⟨entry, stored, Or.inl value⟩
  · obtain ⟨entry, stored, value⟩ := evaluated .overflow
    exact ⟨entry, stored, Or.inl value⟩

theorem jumpScratch_temporaries :
    ∀ register ∈ jumpScratch, register ∈ temporaries := by
  decide

/-! ## Conditional sets -/

theorem setcc_follows
    (kind : inst.instructionClass = .setcc condition)
    {register : Fadec.Register}
    (destination : inst.getOperand 0 = .reg .byte register .gpl)
    (noUpdate : ∀ flag, flag ∉ inst.updateFlags)
    (represents : Represents layout known machine state)
    (required : ∀ flag ∈ condition.require, known flag)
    (performs : perform layout.mapped inst machine = some after)
    (permits : env.PermitsEverything) :
    ∃ final, (JumpTable.dispatch runtime env).Exits
        (Setcc.generate inst condition) state (.ended final) ∧
      Follows layout inst after state final := by
  simp only [perform, kind, destination] at performs
  obtain ⟨values, lazyFlags, holds⟩ :=
    represents.conditionHolds runtime required rfl
  rw [← holds] at performs
  obtain ⟨middle, exits, evaluated, unchanged⟩ := @Setcc.evaluate_ends runtime
    env state values permits represents.aligned lazyFlags condition
  have guest := isGuest_mapReg register
  have nonzero : mapReg register ≠ .zero := ne_of_isGuest guest (by decide)
  have notValue : Setcc.valueRegister condition ≠ mapReg register := by
    refine (ne_of_isGuest guest ?_).symm
    cases condition <;> rfl
  let later := env.shift (Setcc.evaluate condition).1.length
  let code := Setcc.setValue inst (Setcc.valueRegister condition)
  have computes : ComputesInto [mapReg register, .t0] code := by
    rw [show code = _ from Setcc.setValue_register destination _]
    exact moveToRegister_computesInto _ _
  have value : (applyAll later.origin middle code).get (mapReg register) =
      RegisterAccess.lbyte.merge (middle.get (mapReg register))
        (bit (condition.holds values)) := by
    rw [show code = _ from Setcc.setValue_register destination _]
    exact Setcc.moveToRegister_cleared_lbyte _ _ nonzero notValue evaluated
  have permitsLater : (JumpTable.dispatch runtime later).PermitsEverything :=
    permits
  have ends := Environment.exits_straight computes.straight
    (permitsLater.permitsAll middle code)
  have outside : mapReg register ∉ jumpScratch := by
    intro member
    have reserved : ∀ scratch ∈ jumpScratch, isGuest scratch = false := by
      decide
    rw [reserved _ member] at guest
    cases guest
  rw [unchanged.registers _ outside] at value
  change State.get _ (mapRegType register .gpl) =
    (RegisterAccess.ofType .byte .gpl).merge _ _ at value
  rw [Setcc.generate_eq]
  refine ⟨_, exits.append ends (by simp), follows_of_register represents
    noUpdate ?_ value performs⟩
  refine (unchanged.mono ?_).trans context_not_mem (Unchanged.of_mem ?_ ?_)
  · exact fun _ member =>
      List.mem_cons_of_mem _ (jumpScratch_temporaries _ member)
  · intro other free
    refine computes.get _ _ fun member => free ?_
    rcases List.mem_cons.mp member with rfl | temporary
    · exact List.mem_cons_self
    · rw [List.mem_singleton.mp temporary]
      exact List.mem_cons_of_mem _ (by decide)
  · exact computes.mem _ _

/-! ## Conditional moves -/

/-- The state behind a conditional move. -/
theorem movesIf_follows
    (form : Cmov.ConditionalMove inst condition)
    (noUpdate : ∀ flag, flag ∉ inst.updateFlags)
    (represents : Represents layout known machine state)
    {holds : Bool}
    {accesses : List Access}
    (moves : Cmov.MovesIf inst holds state accesses final)
    (host : KeepsHost layout state final)
    {value : Word}
    (read : machine.read layout.mapped inst
      (inst.getOperand (if holds then 1 else 0)) = some value)
    (write : machine.write layout.mapped inst (inst.getOperand 0) value =
      some after) :
    Follows layout inst after state final := by
  obtain ⟨registers, same⟩ :=
    represents.writtenRegisters form.destination write
  refine ⟨fun reg => ?_, fun pointer mapped => ?_,
    fun flag member => absurd member (noUpdate flag),
    fun field _ => congrFun moves.fields field, host⟩
  · rw [moves.registers, represents.operandValue read]
    exact registers reg
  · rw [moves.memory _ (Layout.outside represents.context mapped).2,
      represents.memory pointer mapped, same]

theorem cmov_follows
    (form : Cmov.ConditionalMove inst condition)
    (source : (inst.getOperand 1).isReg = true)
    (noUpdate : ∀ flag, flag ∉ inst.updateFlags)
    (represents : Represents layout known machine state)
    (required : ∀ flag ∈ condition.require, known flag)
    (performs : perform layout.mapped inst machine = some after)
    (permits : env.PermitsEverything) :
    ∃ final, (JumpTable.dispatch runtime env).Exits
        (Cmov.generate inst condition) state (.ended final) ∧
      Follows layout inst after state final := by
  simp only [perform, form.conditional, Option.bind_eq_bind,
    Option.bind_eq_some_iff] at performs
  obtain ⟨value, read, old, readOld, write⟩ := performs
  obtain ⟨size, number, type, second⟩ := Operand.exists_reg source
  have beside : Cmov.SourceBeside inst state := by
    rw [Cmov.SourceBeside, second]
    trivial
  obtain ⟨values, lazyFlags, holds⟩ := represents.conditionHolds runtime
    required (Cmov.cleared_fields form state)
  rw [← holds] at write
  obtain ⟨middle, visited, pc, unchanged, runs⟩ := @Cmov.generate_runs inst
    condition form runtime env permits state represents.aligned values
    lazyFlags
  have inside : ∀ register ∈ inst.firstRegister :: temporaries,
      isGuest register = true ∨ register ∈ temporaries := by
    intro register member
    rcases List.mem_cons.mp member with rfl | temporary
    · exact Or.inl form.guest
    · exact Or.inr temporary
  have clears : Unchanged (inst.firstRegister :: temporaries) state
      (Cmov.cleared inst state) :=
    Unchanged.of_mem
      (fun register free => Cmov.cleared_get form state fun same =>
        free (same ▸ List.mem_cons_self))
      (Cmov.cleared_mem form state)
  have context : contextAddress ∉ inst.firstRegister :: temporaries :=
    List.not_mem_cons_of_ne_of_not_mem (form.apart (by decide)) (by decide)
  have evaluates := unchanged.mono (fun _ member =>
    List.mem_cons_of_mem inst.firstRegister
      (jumpScratch_temporaries _ member))
  have fromCleared : KeepsHost layout state middle :=
    KeepsHost.of_unchanged (clears.trans context evaluates) inside
  cases met : condition.holds values with
  | false =>
      rw [met, if_neg Bool.false_ne_true] at runs write
      exact ⟨middle, runs.exits, movesIf_follows form noUpdate represents
        (Cmov.movesIf_over form unchanged []) fromCleared readOld write⟩
  | true =>
      rw [met, if_pos rfl] at runs write
      have moves := (Cmov.movesIf_into form unchanged beside pc).mpr
        fun isMem => by
          rw [second] at isMem
          cases isMem
      refine ⟨_, runs.1.exits, movesIf_follows form noUpdate represents moves
        (fromCleared.trans ?_) read write⟩
      have computes : ComputesInto [inst.firstRegister, .t0]
          (Cmov.generateMove inst) := by
        simp only [Cmov.generateMove, second]
        exact moveToRegister_computesInto _ _
      refine KeepsHost.of_unchanged (Unchanged.of_mem
        (fun _ => computes.get pc middle) (computes.mem pc middle)) ?_
      simp [form.guest, temporaries]

end Guest
end Oxtra

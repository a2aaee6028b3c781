import Oxtra.Instruction.Modifications

/-!
# Operands that are written back

An operand in the memory is written to the address register of its load.  The
segment is in that register already and is added once more, and a register that
the load itself overwrites has the result instead of the address.
-/

namespace Oxtra
namespace Instruction

open RiscV
open Encoding
open Helper
open FlagInfo
open Fadec (Operand OperandSize)

variable (inst : Instruction)

/-! ## The register with the address -/

/-- Without an offset there is no override. -/
theorem noOverride_iff : inst.NoOverride ↔ inst.segmentOffset = 0 := by
  constructor
  · exact NoOverride.segmentOffset
  · intro none
    constructor
    · intro fs
      rw [segmentOffset, fs] at none
      cases none
    · intro gs
      rw [segmentOffset, gs] at none
      cases none

/-- The address of a load is in the temporary if it is computed. -/
theorem readAddress_eq_temp_iff
    (op : Operand)
    {dest temp : Register}
    (nonzero : temp ≠ .zero)
    (free : isGuest temp = false) :
    (inst.readAddress op dest temp).2 = temp ↔
      inst.computesAddress op = true := by
  have guest (register : Fadec.Register) : mapReg register ≠ temp :=
    ne_of_isGuest (isGuest_mapReg register) free
  rw [readAddress_eq]
  by_cases small : inst.smallDisplacement = true
  · rw [if_pos small]
    unfold simpleAddress computesAddress
    cases baseRegister op <;> cases inst.indexRegister <;>
      by_cases scale : inst.indexScale = 0#2 <;>
      simp [small, scale, guest, nonzero.symm]
  · have large : inst.smallDisplacement = false := by simpa using small
    rw [if_neg small, inst.translateMemory_hasAddress op temp dest large]
    exact iff_of_true rfl (by simp [computesAddress, large])

/-- With an override the address of a load is in its own destination if it is
computed. -/
theorem readBase_override
    (override : inst.segmentOffset ≠ 0)
    (op : Operand)
    {dest temp : Register}
    (nonzero : temp ≠ .zero)
    (free : isGuest temp = false) :
    (inst.readBase op dest temp).2 =
      if inst.computesAddress op then dest else temp := by
  have computes := @readAddress_eq_temp_iff inst op dest temp nonzero free
  simp only [readBase, handleSegmentOverride_eq, if_pos override, computes]

/-! ## The address of the store -/

/-- Where the code stores an operand that it has loaded and that has become a
word. -/
def writtenAddress (op : Operand) (state : State) (word : Word) : Word :=
  if inst.segmentOffset = 0 then
    inst.accessedAddress op state
  else if inst.computesAddress op then
    word + inst.segmentBase state + signedImm inst.operationDisplacement
  else
    inst.accessedAddress op state + inst.segmentBase state +
      inst.segmentBase state

/-- The base of the segment makes no difference when it is added to the word in
place of the address or is added to the address again. -/
def KeepsAddress (op : Operand) (state : State) (word : Word) : Prop :=
  inst.segmentOffset ≠ 0 ->
    if inst.computesAddress op then
      word = inst.partialAddress op state
    else
      inst.segmentBase state = 0

instance (op : Operand) (state : State) (word : Word) :
    Decidable (inst.KeepsAddress op state word) :=
  inferInstanceAs (Decidable (_ → _))

/-- The store goes to the address of the load if there is no override, or if
the word is the address or the base of the segment is zero. -/
theorem writtenAddress_eq_iff (op : Operand) (state : State) (word : Word) :
    inst.writtenAddress op state word =
        inst.accessedAddress op state + inst.segmentBase state ↔
      inst.KeepsAddress op state word := by
  unfold KeepsAddress
  unfold writtenAddress
  by_cases none : inst.segmentOffset = 0
  · have noBase : inst.segmentBase state = 0 := by
      rw [segmentBase, if_pos none]
    simp [none, noBase]
  · rw [if_neg none]
    simp only [ne_eq, none, not_false_eq_true, forall_const]
    split
    · rw [← partialAddress_add, add_right_comm word, add_right_cancel_iff,
        add_right_cancel_iff]
    · exact add_eq_left

/-- Registers that an operation changes behind the load of its operand. -/
def modificationScratch : List Register :=
  [.t0, .t2, .t3, .t4, .t5, .t6, .ra]

section Store

variable {inst} {op : Operand} {pc : Word} {state changed : State}
variable {loadedWord : Word}
variable (kept : ∀ register, register ∉ modificationScratch ->
  changed.get register =
    ((applyAll pc state (inst.readBase op .t0 .t1).1).set .t0 loadedWord).get
      register)
variable (segment : inst.segmentBase changed = inst.segmentBase state)

include kept segment

omit segment in
/-- A guest's register is kept by the load and the operation. -/
theorem changed_guest (reg : Fadec.Register) :
    changed.get (mapReg reg) = state.get (mapReg reg) := by
  have guest := isGuest_mapReg reg
  have outside : mapReg reg ∉ modificationScratch := by
    intro member
    have free : ∀ register ∈ modificationScratch,
        isGuest register = false := by decide
    rw [free _ member] at guest
    cases guest
  rw [kept _ outside, State.set_get_of_ne _ _
      (ne_of_isGuest guest (by decide)),
    inst.readBase_get _ _ _ _ (ne_of_isGuest guest (by decide))
      (ne_of_isGuest guest (by decide))]

/-- The address of the store behind an operation on the loaded word. -/
theorem writeBase_written (pcWrite : Word) :
    let address := (inst.readBase op .t0 .t1).2
    (applyAll pcWrite changed (inst.writeBase op .t2 .t3 address).1).get
          (inst.writeBase op .t2 .t3 address).2 +
        signedImm inst.operationDisplacement =
      inst.writtenAddress op state (changed.get .t0) := by
  intro address
  have value := inst.readBase_value pc state (by decide : Scratch .t0)
    (by decide : Scratch .t1) (by decide)
    (fun base (_ : base ∈ baseRegister op) =>
      ne_of_isGuest (isGuest_mapReg base) (by decide))
    fun _ => inst.not_clobbers_of_reserved op (by decide)
  unfold writtenAddress
  by_cases none : inst.segmentOffset = 0
  · have noOverride := inst.noOverride_iff.2 none
    have suitable : Suitable .t1 .t2 .t3 .t0 modificationScratch := by
      decide
    rw [if_pos none]
    refine writeBase_reached noOverride suitable pcWrite (fun _ => rfl)
      (changed_guest kept) fun notZero => ?_
    obtain zero | ⟨notLoaded, outside, -⟩ :=
      @readBase_register inst noOverride op .t1 .t2 .t3 .t0 _ suitable
    · exact absurd zero notZero
    · rw [kept _ outside, State.set_get_of_ne _ _ notLoaded, value,
        noOverride.segmentBase, BitVec.add_zero]
  · have register := @readBase_override inst none op .t0 .t1 (by decide)
      (by decide)
    have notZero : address ≠ .zero := by
      simp only [address, register]
      split <;> decide
    rw [if_neg none, @writeBase_known inst op pcWrite changed .t2 .t3 address
      (by decide) (by decide) (by decide) notZero, segment]
    split
    · rename_i computes
      simp only [address, register, if_pos computes]
    · rename_i known
      have fromLoad : changed.get address =
          inst.partialAddress op state + inst.segmentBase state := by
        rw [← value, kept _ (by
          simp only [address, register, if_neg known]
          decide), State.set_get_of_ne _ _ (by
          simp only [address, register, if_neg known]
          decide)]
      rw [fromLoad, ← partialAddress_add]
      abel

end Store

/-! ## The accesses -/

/-- Code that loads an operand behind some other code, operates on it and
writes it back. -/
def modifyOperand
    (inst : Instruction)
    (op : Operand)
    (source middle : List Inst) : List Inst :=
  source ++ (inst.readFromMemory op .t0 .t1 false).1 ++ middle ++
    inst.writeToMemory op .t0 .t2 .t3
      (inst.readFromMemory op .t0 .t1 false).2

section Accesses

variable {inst} {op : Operand} {source middle : List Inst}
variable (computes : ComputesInto [.t2] source) {pc : Word} {state : State}

include computes

/-- The code in front of the load keeps the registers of the guest. -/
theorem source_guest (reg : Fadec.Register) :
    (applyAll pc state source).get (mapReg reg) = state.get (mapReg reg) := by
  have different : mapReg reg ≠ .t2 :=
    ne_of_isGuest (isGuest_mapReg reg) (by decide)
  exact computes.get _ _ (by simp [different])

/-- The code in front of the load keeps the base of the segment. -/
theorem segmentBase_source :
    inst.segmentBase (applyAll pc state source) = inst.segmentBase state := by
  unfold segmentBase
  rw [computes.mem, computes.get _ _ (by decide)]

theorem writtenAddress_source (word : Word) :
    inst.writtenAddress op (applyAll pc state source) word =
      inst.writtenAddress op state word := by
  unfold writtenAddress
  rw [inst.accessedAddress_congr (source_guest computes) op,
    segmentBase_source computes]

/-- The address of the load behind the other code. -/
theorem loadBase_reached :
    (applyAll (pc + BitVec.ofNat 64 (4 * source.length))
          (applyAll pc state source) (inst.readBase op .t0 .t1).1).get
          (inst.readBase op .t0 .t1).2 +
        signedImm inst.operationDisplacement =
      inst.accessedAddress op state + inst.segmentBase state := by
  have reached := inst.address_add _ (inst.readBase_value
    (pc + BitVec.ofNat 64 (4 * source.length)) (applyAll pc state source)
    (by decide : Scratch .t0) (by decide : Scratch .t1) (by decide)
    (fun base (_ : base ∈ baseRegister op) =>
      ne_of_isGuest (isGuest_mapReg base) (by decide))
    fun _ => inst.not_clobbers_of_reserved op (by decide))
  rwa [segmentBase_source computes,
    inst.accessedAddress_congr (source_guest computes) op] at reached

/-- The loaded operand, with everything else. -/
theorem loaded_eq :
    applyAll pc state (source ++ (inst.readFromMemory op .t0 .t1 false).1) =
      (applyAll (pc + BitVec.ofNat 64 (4 * source.length))
          (applyAll pc state source) (inst.readBase op .t0 .t1).1).set .t0
        (state.mem.load
          (inst.accessedAddress op state + inst.segmentBase state)
          op.size.bytes) := by
  rw [applyAll_append, inst.readFromMemory_apply _ _
    (loadBase_reached computes), operandLoad_unsigned, computes.mem]

/-- The load is the only access in front of the operation. -/
theorem loading_accesses :
    accessesApart contextAddress (Environment.straightTrace pc state
        (source ++ (inst.readFromMemory op .t0 .t1 false).1)) =
      [.load (inst.accessedAddress op state + inst.segmentBase state)
        op.size.bytes] := by
  rw [Environment.straightTrace_append, accessesApart_append,
    computes.accessesApart, List.nil_append]
  exact inst.readFromMemory_accesses _ _ (by decide) (by decide)
    (loadBase_reached computes) false

theorem loading_straight :
    ∀ written ∈ source ++ (inst.readFromMemory op .t0 .t1 false).1,
      written.isStraight = true := by
  intro written member
  rcases List.mem_append.mp member with before | load
  · exact computes.straight _ before
  · exact inst.readFromMemory_straight _ _ _ _ load

/-- The code stores a word where it has loaded the operand, or elsewhere. -/
theorem traces_modifyOperand
    {env : Environment}
    (permits : env.PermitsEverything)
    (hidden : ∀ written ∈ middle,
      written.base = none ∨ written.base = some contextAddress)
    {changed : State}
    (exits :
      let loading := source ++ (inst.readFromMemory op .t0 .t1 false).1
      (env.shift loading.length).Exits middle
        (applyAll env.origin state loading) (.ended changed))
    (kept : ∀ register, register ∉ modificationScratch ->
      changed.get register =
        (applyAll env.origin state
          (source ++ (inst.readFromMemory op .t0 .t1 false).1)).get register)
    (segment : inst.segmentBase changed = inst.segmentBase state) :
    ∃ visited final,
      env.Traces (modifyOperand inst op source middle) state visited
          (.ended final) ∧
        accessesApart contextAddress visited =
          [.load (inst.accessedAddress op state + inst.segmentBase state)
              op.size.bytes,
            .store (inst.writtenAddress op state (changed.get .t0))
              op.size.bytes
              ((changed.get .t0).toNat % 256 ^ op.size.bytes)] := by
  let loading := source ++ (inst.readFromMemory op .t0 .t1 false).1
  let address := (inst.readBase op .t0 .t1).2
  let write := inst.writeToMemory op .t0 .t2 .t3 address
  let last := (env.shift loading.length).shift middle.length
  have loads := Environment.traces_straight
    (@loading_straight inst op source computes)
    (permits.permitsAll state _)
  obtain ⟨visited, middleTraces⟩ := exits.traces
  have nothing : accessesApart contextAddress visited = [] :=
    accessesApart_eq_nil fun visit member =>
      hidden _ (middleTraces.mem_code member)
  have lastPermits : last.PermitsEverything := (permits.shift _).shift _
  have writes := Environment.traces_straight
    (inst.writeToMemory_straight .t0 .t2 .t3 address)
    (lastPermits.permitsAll changed write)
  have behindLoad : ∀ register, register ∉ modificationScratch ->
      changed.get register = _ := fun register outside =>
    (kept register outside).trans
      (congrArg (State.get · register) (loaded_eq computes))
  have reached := writeBase_written behindLoad
    (segment.trans (segmentBase_source computes).symm) last.origin
  rw [writtenAddress_source computes] at reached
  have visible : address ≠ contextAddress :=
    (inst.readBase_hasAddress op .t0 .t1).ne_context (by decide)
  have stored := inst.writeToMemory_accesses last.origin changed
    (by decide : Scratch .t2) (by decide : Scratch .t3) visible
    (by decide : Register.t0 ≠ .t2) (by decide : Register.t0 ≠ .t3) reached
  have whole := loads.append (middleTraces.append writes (by simp)) (by simp)
  rw [← List.append_assoc] at whole
  refine ⟨_, _, whole, ?_⟩
  rw [accessesApart_append, accessesApart_append, nothing,
    loading_accesses computes, List.nil_append]
  exact congrArg ([_] ++ ·) stored

end Accesses

end Instruction
end Oxtra

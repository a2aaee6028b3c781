import Oxtra.Instruction.ExtendedOperands
import Oxtra.Instructions.ConditionalJumps
import Oxtra.Instructions.DirectLoads

/-!
# Repetitions of string instructions

One pass of a string instruction does what the instruction does without a
prefix, and the loop around it makes as many passes as `rcx` says.  The code
does not look at the segment of the source, so it does what x86 does when the
elements in the segment are those without it.
-/

namespace Oxtra

open RiscV
open Encoding
open Helper
open TwosComplement
open Fadec (Operand OperandSize)

namespace Repeatable

open Instruction (loadOperand storeOperand operandLoad operandStore
  loadOperand_eq storeOperand_eq operandLoad_bytes operandStore_bytes
  load_truncated)

/-! ## One operation -/

/-- The number of bytes of the operand, as a word. -/
def stride (inst : Instruction) : Word :=
  BitVec.ofNat 64 inst.operandSize.bytes

/-- The element at the source, in a segment with this base. -/
def element (inst : Instruction) (base : Word) (state : State) : Word :=
  state.mem.load (state.get rsi + base) inst.operandSize.bytes

/-- One operation on x86, when the segment of the source has this base. -/
def single (inst : Instruction) (base : Word) : Repeatable -> State -> State
  | lods, state =>
      (state.set rax ((RegisterAccess.ofSize inst.operandSize).merge
        (state.get rax) (element inst base state))).set rsi
          (state.get rsi + stride inst)
  | movs, state =>
      ((state.store (state.get rdi) inst.operandSize.bytes
        (element inst base state)).set rsi
          (state.get rsi + stride inst)).set rdi
            (state.get rdi + stride inst)
  | stos, state =>
      (state.store (state.get rdi) inst.operandSize.bytes
        (state.get rax)).set rdi (state.get rdi + stride inst)

/-- The guest sees the same in two states, up to the count. -/
structure SameBesideCount (first second : State) : Prop where
  registers : ∀ reg, mapReg reg ≠ rcx ->
    first.get (mapReg reg) = second.get (mapReg reg)
  memory : first.mem = second.mem
  context : first.get contextAddress = second.get contextAddress

namespace SameBesideCount

variable {first second third : State}

theorem refl (state : State) : SameBesideCount state state :=
  ⟨fun _ _ => rfl, rfl, rfl⟩

theorem trans
    (left : SameBesideCount first second)
    (right : SameBesideCount second third) : SameBesideCount first third :=
  ⟨fun reg other =>
      (left.registers reg other).trans (right.registers reg other),
    left.memory.trans right.memory, left.context.trans right.context⟩

theorem set
    (same : SameBesideCount first second)
    (register : Register)
    (value : Word) :
    SameBesideCount (first.set register value) (second.set register value) :=
  ⟨fun reg other => State.set_get_congr (same.registers reg other) _ _,
    same.memory, State.set_get_congr same.context _ _⟩

theorem store
    (same : SameBesideCount first second)
    (address : Word)
    (bytes : Nat)
    (value : Word) :
    SameBesideCount (first.store address bytes value)
      (second.store address bytes value) :=
  ⟨same.registers, congrArg (Memory.store · address bytes value) same.memory,
    same.context⟩

theorem symm (same : SameBesideCount first second) :
    SameBesideCount second first :=
  ⟨fun reg other => (same.registers reg other).symm, same.memory.symm,
    same.context.symm⟩

/-- A temporary, or the count, may change. -/
theorem set_left
    (same : SameBesideCount first second)
    {register : Register}
    (hidden : isGuest register = false ∨ register = rcx)
    (notContext : register ≠ contextAddress)
    (value : Word) :
    SameBesideCount (first.set register value) second := by
  refine ⟨fun reg other => ?_, same.memory, ?_⟩
  · have different : mapReg reg ≠ register := by
      rcases hidden with free | rfl
      · exact ne_of_isGuest (isGuest_mapReg reg) free
      · exact other
    rw [State.set_get_of_ne _ _ different, same.registers reg other]
  · rw [State.set_get_of_ne _ _ notContext.symm, same.context]

end SameBesideCount

section Single

variable {inst : Instruction} (base : Word) (operation : Repeatable)

theorem element_zero (state : State) :
    element inst 0 state =
      state.mem.load (state.get rsi) inst.operandSize.bytes := by
  rw [element, add_zero]

/-- An operation does not look at the count. -/
theorem single_congr
    {first second : State}
    (same : SameBesideCount first second) :
    SameBesideCount (single inst base operation first)
      (single inst base operation second) := by
  have source : first.get rsi = second.get rsi :=
    same.registers 6 (by decide)
  have destination : first.get rdi = second.get rdi :=
    same.registers 7 (by decide)
  have accumulator : first.get rax = second.get rax :=
    same.registers 0 (by decide)
  have element : element inst base first = element inst base second := by
    rw [element, element, source, same.memory]
  cases operation with
  | lods =>
      simp only [single, source, accumulator, element]
      exact (same.set _ _).set _ _
  | movs =>
      simp only [single, source, destination, element]
      exact ((same.store _ _ _).set _ _).set _ _
  | stos =>
      simp only [single, destination, accumulator]
      exact (same.store _ _ _).set _ _

theorem single_count (state : State) :
    (single inst base operation state).get rcx = state.get rcx := by
  cases operation with
  | lods =>
      rw [single, State.set_get_of_ne _ _ (by decide),
        State.set_get_of_ne _ _ (by decide)]
  | movs =>
      rw [single, State.set_get_of_ne _ _ (by decide),
        State.set_get_of_ne _ _ (by decide), State.store_get]
  | stos =>
      rw [single, State.set_get_of_ne _ _ (by decide), State.store_get]

/-! ## The code of an operation -/

/-- The operand size is a small immediate. -/
theorem advance_apply
    (pointer : Register)
    (pc : Word)
    (state : State) :
    (advance pointer inst.operandSize).apply pc state =
      state.set pointer (state.get pointer + stride inst) := by
  have bytes : signedImm (BitVec.ofNat 16 inst.operandSize.bytes) =
      stride inst := by
    unfold stride
    cases inst.operandSize <;> decide
  rw [advance, apply_addi, bytes]

/-- An element is loaded without an extension of its sign. -/
theorem loadElement_eval
    (mem : Memory)
    (address : Word) :
    (operandLoad inst.operandSize false).eval mem address =
      mem.load address inst.operandSize.bytes := by
  cases inst.operandSize <;> rfl

/-- A short element is merged into the accumulator. -/
theorem lodsOperation_short
    (short : inst.operandSize ≠ .qword)
    (pc : Word)
    (state : State) :
    let executed := applyAll pc state (lodsOperation inst.operandSize)
    SameBesideCount executed (single inst 0 lods state) ∧
      executed.get rcx = state.get rcx := by
  have zero : signedImm (0 : BitVec 16) = 0 := by decide
  let access := RegisterAccess.ofSize inst.operandSize
  let loaded := state.set .t4 (element inst 0 state)
  intro executed
  have applied : executed = (applyAll (pc + 4) loaded
      (moveToRegister rax .t4 access .t5 true)).set rsi
        ((applyAll (pc + 4) loaded
          (moveToRegister rax .t4 access .t5 true)).get rsi + stride inst) := by
    have code : lodsOperation inst.operandSize =
        loadOperand inst.operandSize false .t4 rsi 0 ::
          (moveToRegister rax .t4 access .t5 true ++
            [advance rsi inst.operandSize]) := by
      cases size : inst.operandSize with
      | qword => exact absurd size short
      | _ =>
          simp only [access, size]
          rfl
    have first : (loadOperand inst.operandSize false .t4 rsi 0).apply pc
        state = loaded := by
      rw [loadOperand_eq, apply_load, loadElement_eval, zero, add_zero,
        ← element_zero]
    simp only [executed]
    rw [code, applyAll_cons, first, applyAll_append, applyAll_cons,
      applyAll_nil, advance_apply]
  have computes : ComputesInto [rax, .t5]
      (moveToRegister rax .t4 access .t5 true) :=
    moveToRegister_computesInto access true
  have bits : access.bits = inst.operandSize.bits := ofSize_bits _
  have word : loaded.get .t4 = element inst 0 state :=
    State.set_get_self _ _ (by decide)
  have merged := @moveToRegister_cleared rax .t4 .t5 (pc + 4) loaded
    (by decide) (by decide) access (RegisterAccess.ofSize_ne_hbyte _)
    (by
      rw [word, bits]
      exact load_truncated _ _ _)
  rw [word, State.set_get_of_ne _ _ (by decide)] at merged
  have kept : ∀ {register : Register}, register ≠ rax -> register ≠ .t4 ->
      register ≠ .t5 -> (applyAll (pc + 4) loaded
        (moveToRegister rax .t4 access .t5 true)).get register =
          state.get register := by
    intro register notRax notLoaded notTemp
    rw [computes.get _ _ (by simp [notRax, notTemp]),
      State.set_get_of_ne _ _ notLoaded]
  rw [kept (by decide) (by decide) (by decide)] at applied
  have same : SameBesideCount (applyAll (pc + 4) loaded
      (moveToRegister rax .t4 access .t5 true))
        (state.set rax (access.merge (state.get rax)
          (element inst 0 state))) := by
    refine ⟨fun reg other => ?_, computes.mem _ _, ?_⟩
    · by_cases accumulator : mapReg reg = rax
      · rw [accumulator, merged, State.set_get_self _ _ (by decide)]
      · have guest := isGuest_mapReg reg
        rw [State.set_get_of_ne _ _ accumulator, kept accumulator
          (ne_of_isGuest guest (by decide)) (ne_of_isGuest guest (by decide))]
    · rw [State.set_get_of_ne _ _ (by decide),
        kept (by decide) (by decide) (by decide)]
  rw [applied]
  refine ⟨same.set _ _, ?_⟩
  rw [State.set_get_of_ne _ _ (by decide),
    kept (by decide) (by decide) (by decide)]

/-- The code of an operation does the operation without a segment. -/
theorem execute_spec (pc : Word) (state : State) :
    let executed := applyAll pc state (operation.execute inst.operandSize)
    SameBesideCount executed (single inst 0 operation state) ∧
      executed.get rcx = state.get rcx := by
  have zero : signedImm (0 : BitVec 16) = 0 := by decide
  have wideZero : signedImm (0 : BitVec 32) = 0 := by decide
  intro executed
  cases operation with
  | movs =>
      let loaded := state.set .t4 (element inst 0 state)
      have applied : executed = ((loaded.store (state.get rdi)
          inst.operandSize.bytes (element inst 0 state)).set rsi
            (state.get rsi + stride inst)).set rdi
              (state.get rdi + stride inst) := by
        simp only [executed, execute, movsOperation, loadOperand_eq,
          storeOperand_eq, applyAll_cons, applyAll_nil, apply_load,
          apply_store, advance_apply, loadElement_eval, operandStore_bytes,
          zero, wideZero, add_zero, ← element_zero]
        rw [State.set_get_self _ _ (by decide),
          State.set_get_of_ne _ _ (by decide), State.store_get,
          State.set_get_of_ne _ _ (by decide),
          State.set_get_of_ne _ _ (by decide), State.store_get,
          State.set_get_of_ne _ _ (by decide)]
      rw [applied]
      refine ⟨(((SameBesideCount.refl state).set_left (Or.inl (by decide))
        (by decide) _).store _ _ _ |>.set _ _).set _ _, ?_⟩
      rw [State.set_get_of_ne _ _ (by decide),
        State.set_get_of_ne _ _ (by decide), State.store_get,
        State.set_get_of_ne _ _ (by decide)]
  | stos =>
      have applied : executed = single inst 0 stos state := by
        simp only [executed, execute, stosOperation, storeOperand_eq,
          applyAll_cons, applyAll_nil, apply_store, advance_apply,
          operandStore_bytes, wideZero, add_zero, single, State.store_get]
      rw [applied, single_count]
      exact ⟨SameBesideCount.refl _, rfl⟩
  | lods =>
      by_cases whole : inst.operandSize = .qword
      · have eight : signedImm (8 : BitVec 16) = stride inst := by
          rw [stride, whole]
          decide
        have load : Load.ld.eval state.mem (state.get rsi) =
            element inst 0 state := by
          rw [element_zero, whole]
          rfl
        have code : execute inst.operandSize lods =
            [ld rax rsi 0, addi rsi rsi 8] := by
          rw [whole]
          rfl
        have applied : executed = single inst 0 lods state := by
          simp only [executed]
          rw [code, ld_eq, applyAll_cons, apply_load, zero, add_zero, load,
            applyAll_cons, apply_addi, applyAll_nil, eight,
            State.set_get_of_ne _ _ (by decide), single, whole]
          rfl
        rw [applied, single_count]
        exact ⟨SameBesideCount.refl _, rfl⟩
      · exact lodsOperation_short whole pc state

/-! ## The loop -/

/-- The code of an operation is short and has no jumps. -/
theorem execute_straight :
    ∀ size, (∀ written ∈ operation.execute size, written.isStraight = true) ∧
      (operation.execute size).length < 8 := by
  cases operation <;> intro size <;> cases size <;> decide

/-- One pass of the loop. -/
def pass (inst : Instruction) (operation : Repeatable) : List Inst :=
  addi rcx rcx (-1) :: operation.execute inst.operandSize

/-- The state behind a pass. -/
def passed
    (inst : Instruction)
    (operation : Repeatable)
    (pc : Word)
    (state : State) : State :=
  applyAll pc state (pass inst operation)

/-- A pass counts down and does one operation. -/
theorem passed_spec (pc : Word) (state : State) :
    SameBesideCount (passed inst operation pc state)
        (single inst 0 operation state) ∧
      (passed inst operation pc state).get rcx = state.get rcx - 1 := by
  have one : signedImm (-1 : BitVec 16) = -1 := by decide
  let counted := state.set rcx (state.get rcx - 1)
  have code : passed inst operation pc state =
      applyAll (pc + 4) counted (operation.execute inst.operandSize) := by
    simp only [passed, pass, counted]
    rw [applyAll_cons, apply_addi, one, sub_eq_add_neg]
  obtain ⟨same, count⟩ := execute_spec operation (pc + 4) counted
  rw [code]
  constructor
  · exact same.trans (single_congr 0 operation
      ((SameBesideCount.refl state).set_left (Or.inr rfl) (by decide) _))
  · rw [count, State.set_get_self _ _ (by decide)]

/-- Some passes count down as often and do as many operations. -/
theorem iterate_passed (pc : Word) (state : State) (count : Nat) :
    SameBesideCount ((passed inst operation pc)^[count] state)
        ((single inst 0 operation)^[count] state) ∧
      ((passed inst operation pc)^[count] state).get rcx =
        state.get rcx - BitVec.ofNat 64 count := by
  induction count with
  | zero => exact ⟨SameBesideCount.refl _, by simp⟩
  | succ count inductionHypothesis =>
      obtain ⟨same, counted⟩ := inductionHypothesis
      obtain ⟨next, left⟩ := passed_spec operation pc
        ((passed inst operation pc)^[count] state)
      rw [Function.iterate_succ_apply', Function.iterate_succ_apply']
      refine ⟨next.trans (single_congr 0 operation same), ?_⟩
      rw [left, counted, BitVec.ofNat_add, sub_sub]
      rfl

/-- The branch behind a pass tests the count. -/
theorem again_iff (state : State) :
    Branch.bne.eval (state.get rcx) (state.get .zero) = true ↔
      state.get rcx ≠ 0 := by
  rw [State.get_zero]
  simp [Branch.eval]

/-- The loop makes as many passes as the count says. -/
theorem loop_exits
    {env : Environment}
    (permits : env.PermitsEverything)
    (state : State)
    (positive : state.get rcx ≠ 0) :
    env.Exits (pass inst operation ++
        [branchBack (bnqz rcx) (pass inst operation)]) state
      (.ended ((passed inst operation env.origin)^[(state.get rcx).toNat]
        state)) := by
  let body := pass inst operation
  let next := passed inst operation env.origin
  obtain ⟨straight, short⟩ := execute_straight operation inst.operandSize
  have bodyStraight : ∀ written ∈ body, written.isStraight = true := by
    simp only [body, pass, List.forall_mem_cons]
    exact ⟨rfl, straight⟩
  have ends : ∀ before, env.Exits body before (.ended (next before)) :=
    fun before => Environment.exits_straight bodyStraight
      (permits.permitsAll before body)
  have length : body.length ≤ 1024 := by
    simp only [body, pass, List.length_cons]
    omega
  have reach := branchBack_reach length
  have left := fun count =>
    (@iterate_passed inst operation env.origin state count).2
  obtain ⟨count, total⟩ : ∃ count, (state.get rcx).toNat = count + 1 := by
    refine ⟨(state.get rcx).toNat - 1, ?_⟩
    have nonzero : (state.get rcx).toNat ≠ 0 := fun zero =>
      positive (BitVec.eq_of_toNat_eq zero)
    omega
  have bound := (state.get rcx).isLt
  rw [total]
  refine @Environment.exits_iterate env _ next _ count state
    (fun k before => ?_) ?_
  · rw [Function.iterate_succ_apply']
    refine Environment.run_branch_back permits (ends _) ?_ reach
    rw [again_iff, ← Function.iterate_succ_apply' next, left]
    intro zero
    have equal := sub_eq_zero.mp zero
    have numbers := congrArg BitVec.toNat equal
    rw [total, BitVec.toNat_ofNat, Nat.mod_eq_of_lt (by omega)] at numbers
    omega
  · rw [Function.iterate_succ_apply']
    refine (ends _).append (Environment.exits_branch_skipped (permits.shift _) ?_
      ⟨1, rfl⟩ (by simp)) (by simp)
    rw [again_iff, ← Function.iterate_succ_apply' next, left, not_not]
    change state.get rcx - BitVec.ofNat 64 (count + 1) = 0
    rw [← total, BitVec.ofNat_toNat, BitVec.setWidth_eq, sub_self]

end Single

/-! ## Repetitions -/

/-- The number of operations on x86: with the prefix the count, and one
without. -/
def iterations (inst : Instruction) (state : State) : Nat :=
  if inst.hasRep then (state.get rcx).toNat else 1

/-- The operation reads the source, or writes the destination, and advances
it. -/
def advances (operation : Repeatable) (pointer : Register) : Prop :=
  operation ≠ stos ∧ pointer = rsi ∨ operation ≠ lods ∧ pointer = rdi

instance (operation : Repeatable) (pointer : Register) :
    Decidable (operation.advances pointer) :=
  inferInstanceAs (Decidable (_ ∨ _))

section Pointers

variable (inst : Instruction) (base : Word) (operation : Repeatable)

theorem single_pointer
    {pointer : Register}
    (isPointer : pointer = rsi ∨ pointer = rdi)
    (state : State) :
    (single inst base operation state).get pointer = state.get pointer +
      if operation.advances pointer then stride inst else 0 := by
  have different : rsi ≠ rdi := by decide
  rcases isPointer with rfl | rfl <;> cases operation <;>
    simp [single, advances, different, different.symm,
      (by decide : rsi ≠ .zero), (by decide : rdi ≠ .zero),
      (by decide : rdi ≠ rax)]

/-- Every operation advances a pointer by the operand size. -/
theorem iterate_single_pointer
    {pointer : Register}
    (isPointer : pointer = rsi ∨ pointer = rdi)
    (state : State)
    (count : Nat) :
    ((single inst base operation)^[count] state).get pointer =
      state.get pointer +
        if operation.advances pointer then
          BitVec.ofNat 64 count * stride inst
        else
          0 := by
  induction count with
  | zero => simp
  | succ count inductionHypothesis =>
      rw [Function.iterate_succ_apply', single_pointer _ _ _ isPointer,
        inductionHypothesis]
      split
      · rw [BitVec.ofNat_add, add_mul, add_assoc]
        congr 2
        exact (one_mul _).symm
      · simp

/-- The other registers stay, but for the one that is loaded. -/
theorem iterate_single_get
    {register : Register}
    (notSource : register ≠ rsi)
    (notDestination : register ≠ rdi)
    (notLoaded : operation = lods -> register ≠ rax)
    (state : State)
    (count : Nat) :
    ((single inst base operation)^[count] state).get register =
      state.get register := by
  induction count with
  | zero => rfl
  | succ count inductionHypothesis =>
      rw [Function.iterate_succ_apply', ← inductionHypothesis]
      cases operation with
      | lods =>
          rw [single, State.set_get_of_ne _ _ notSource,
            State.set_get_of_ne _ _ (notLoaded rfl)]
      | movs =>
          rw [single, State.set_get_of_ne _ _ notDestination,
            State.set_get_of_ne _ _ notSource, State.store_get]
      | stos =>
          rw [single, State.set_get_of_ne _ _ notDestination, State.store_get]

/-- The segment of the source matters for the memory and the accumulator. -/
theorem sameBesideCount_iterate
    {state : State}
    {count : Nat}
    (memory : ((single inst 0 operation)^[count] state).mem =
      ((single inst base operation)^[count] state).mem)
    (accumulator : operation = lods ->
      ((single inst 0 operation)^[count] state).get rax =
        ((single inst base operation)^[count] state).get rax) :
    SameBesideCount ((single inst 0 operation)^[count] state)
      ((single inst base operation)^[count] state) := by
  have registers : ∀ register,
      ((single inst 0 operation)^[count] state).get register =
        ((single inst base operation)^[count] state).get register := by
    intro register
    by_cases isPointer : register = rsi ∨ register = rdi
    · rw [iterate_single_pointer _ _ _ isPointer,
        iterate_single_pointer _ _ _ isPointer]
    · obtain ⟨notSource, notDestination⟩ := not_or.mp isPointer
      by_cases loaded : operation = lods ∧ register = rax
      · obtain ⟨isLods, rfl⟩ := loaded
        exact accumulator isLods
      · have notLoaded : operation = lods -> register ≠ rax :=
          fun isLods isRax => loaded ⟨isLods, isRax⟩
        rw [iterate_single_get _ _ _ notSource notDestination notLoaded,
          iterate_single_get _ _ _ notSource notDestination notLoaded]
  exact ⟨fun reg _ => registers (mapReg reg), memory, registers contextAddress⟩

end Pointers

/-! ## Elements in a segment -/

/-- What an operation reads is not lost behind it: the accumulator is not loaded
again, and the memory is so large that no later operation gets to the same
place. -/
def Stays (inst : Instruction) (count index : Nat) : Repeatable -> Prop
  | lods => index + 1 = count
  | movs => (count - index) * inst.operandSize.bytes ≤ 2 ^ 64
  | stos => False

/-- The operations in the segment read what the same operations read without
it. -/
def ReadsAlike
    (inst : Instruction)
    (base : Word)
    (operation : Repeatable)
    (state : State)
    (count : Nat) : Prop :=
  ∀ index < count, Stays inst count index operation ->
    element inst 0 ((single inst 0 operation)^[index] state) =
      element inst base ((single inst base operation)^[index] state)

instance (inst : Instruction) (count index : Nat) :
    (operation : Repeatable) -> Decidable (Stays inst count index operation)
  | lods => inferInstanceAs (Decidable (_ = _))
  | movs => inferInstanceAs (Decidable (_ ≤ _))
  | stos => inferInstanceAs (Decidable False)

instance
    (inst : Instruction)
    (base : Word)
    (operation : Repeatable)
    (state : State)
    (count : Nat) :
    Decidable (ReadsAlike inst base operation state count) :=
  inferInstanceAs (Decidable (∀ index < count, _ -> _ = _))

/-- A segment at zero is none. -/
theorem readsAlike_zero
    (inst : Instruction)
    (operation : Repeatable)
    (state : State)
    (count : Nat) : ReadsAlike inst 0 operation state count :=
  fun _ _ _ => rfl

/-- The same words have the same low bits. -/
theorem element_eq_iff
    {inst : Instruction}
    {base other : Word}
    {first second : State} :
    (element inst base first).setWidth inst.operandSize.bits =
        (element inst other second).setWidth inst.operandSize.bits ↔
      element inst base first = element inst other second := by
  refine ⟨fun same => ?_, congrArg _⟩
  have extended := congrArg (BitVec.setWidth 64) same
  rwa [element, element, load_truncated, load_truncated] at extended

section Loads

variable (inst : Instruction) (base : Word) (state : State)

theorem iterate_lods_mem (count : Nat) :
    ((single inst base lods)^[count] state).mem = state.mem := by
  induction count with
  | zero => rfl
  | succ count inductionHypothesis =>
      rw [Function.iterate_succ_apply', single, State.set_mem, State.set_mem,
        inductionHypothesis]

theorem single_lods_rax :
    (single inst base lods state).get rax =
      (RegisterAccess.ofSize inst.operandSize).merge (state.get rax)
        (element inst base state) := by
  rw [single, State.set_get_of_ne _ _ (by decide),
    State.set_get_self _ _ (by decide)]

/-- Loads keep the part of the accumulator that they do not load. -/
theorem iterate_lods_merge (count : Nat) (value : Word) :
    (RegisterAccess.ofSize inst.operandSize).merge
        (((single inst base lods)^[count] state).get rax) value =
      (RegisterAccess.ofSize inst.operandSize).merge (state.get rax)
        value := by
  induction count with
  | zero => rfl
  | succ count inductionHypothesis =>
      rw [Function.iterate_succ_apply', single_lods_rax,
        RegisterAccess.merge_merge (RegisterAccess.ofSize_ne_hbyte _),
        inductionHypothesis]

/-- The last element is in the accumulator. -/
theorem iterate_lods_rax (last : Nat) :
    ((single inst base lods)^[last + 1] state).get rax =
      (RegisterAccess.ofSize inst.operandSize).merge (state.get rax)
        (element inst base ((single inst base lods)^[last] state)) := by
  rw [Function.iterate_succ_apply', single_lods_rax, iterate_lods_merge]

/-- Loads in the segment do what loads without it do if the last element is
the same. -/
theorem iterate_lods_iff (count : Nat) :
    SameBesideCount ((single inst 0 lods)^[count] state)
        ((single inst base lods)^[count] state) ↔
      ReadsAlike inst base lods state count := by
  cases count with
  | zero => exact iff_of_true (SameBesideCount.refl _) (by simp [ReadsAlike])
  | succ last =>
      have bits : (RegisterAccess.ofSize inst.operandSize).bits =
          inst.operandSize.bits := ofSize_bits _
      have last_iff : ReadsAlike inst base lods state (last + 1) ↔
          element inst 0 ((single inst 0 lods)^[last] state) =
            element inst base ((single inst base lods)^[last] state) := by
        refine ⟨fun alike => alike last (by omega) rfl, ?_⟩
        intro same index _ isLast
        obtain rfl := Nat.succ.inj isLast
        exact same
      rw [last_iff, ← element_eq_iff, ← bits, ← RegisterAccess.merge_eq_iff _
        (state.get rax), ← iterate_lods_rax, ← iterate_lods_rax]
      constructor
      · intro same
        exact same.registers 0 (by decide)
      · intro same
        refine sameBesideCount_iterate inst base lods ?_ fun _ => same
        rw [iterate_lods_mem, iterate_lods_mem]

end Loads

section Moves

variable (inst : Instruction) (base : Word) (state : State)

/-- The place that an operation stores at. -/
def place (index : Nat) : Word :=
  state.get rdi + BitVec.ofNat 64 (index * inst.operandSize.bytes)

theorem iterate_movs_succ (count : Nat) :
    ((single inst base movs)^[count + 1] state).mem =
      ((single inst base movs)^[count] state).mem.store (place inst state count)
        inst.operandSize.bytes
        (element inst base ((single inst base movs)^[count] state)) := by
  have destination := iterate_single_pointer inst base movs (Or.inr rfl) state
    count
  rw [if_pos (by decide), stride, ← BitVec.ofNat_mul] at destination
  rw [Function.iterate_succ_apply', single, State.set_mem, State.set_mem,
    State.store_mem, destination, place]

theorem place_add (start further : Nat) :
    place inst state (start + further) =
      place inst state start +
        BitVec.ofNat 64 (further * inst.operandSize.bytes) := by
  rw [place, place, Nat.add_mul, BitVec.ofNat_add, BitVec.add_assoc]

/-- A place is as far in front of a later one as was stored from it on. -/
theorem place_sub
    {further : Nat}
    (fits : (further + 2) * inst.operandSize.bytes ≤ 2 ^ 64)
    (index : Nat) :
    (place inst state index - place inst state (index + (further + 1))).toNat =
      2 ^ 64 - (further + 1) * inst.operandSize.bytes := by
  have positive : 0 < inst.operandSize.bytes := by
    cases inst.operandSize <;> decide
  have between : 0 < (further + 1) * inst.operandSize.bytes :=
    Nat.mul_pos (Nat.succ_pos _) positive
  have whole : (further + 2) * inst.operandSize.bytes =
      (further + 1) * inst.operandSize.bytes + inst.operandSize.bytes :=
    Nat.succ_mul _ _
  rw [place_add, BitVec.toNat_sub, BitVec.toNat_add, BitVec.toNat_ofNat]
  omega

/-- An element that was moved is still there behind the moves that do not get to
its place again. -/
theorem load_iterate_movs
    {count index : Nat}
    (moved : index < count)
    (stays : Stays inst count index movs) :
    ((single inst base movs)^[count] state).mem.load (place inst state index)
        inst.operandSize.bytes =
      element inst base ((single inst base movs)^[index] state) := by
  have short : inst.operandSize.bytes ≤ 8 := by
    cases inst.operandSize <;> decide
  obtain ⟨further, rfl⟩ := Nat.exists_eq_add_of_lt moved
  have fits : (further + 1) * inst.operandSize.bytes ≤ 2 ^ 64 := by
    rw [Stays] at stays
    rwa [show index + further + 1 - index = further + 1 by omega] at stays
  clear moved stays
  induction further with
  | zero =>
      rw [add_zero, iterate_movs_succ]
      apply BitVec.eq_of_toNat_eq
      rw [Memory.load_store_self _ _ _ short]
      exact Nat.mod_eq_of_lt (Memory.load_toNat _ _ short ▸
        Memory.loadNat_lt _ _ _)
  | succ further inductionHypothesis =>
      have offset := place_sub inst state fits index
      rw [Nat.succ_mul] at fits
      have first : inst.operandSize.bytes ≤
          (further + 1) * inst.operandSize.bytes :=
        Nat.le_mul_of_pos_left _ (Nat.succ_pos _)
      rw [iterate_movs_succ, Memory.load_store_of_apart _ _
        (by rw [offset]; omega) (by rw [offset]; omega)]
      exact inductionHypothesis (by omega)

/-- The same elements are moved to the same places. -/
theorem iterate_movs_eq
    {count : Nat}
    (fits : count * inst.operandSize.bytes ≤ 2 ^ 64)
    (alike : ReadsAlike inst base movs state count) :
    (single inst 0 movs)^[count] state =
      (single inst base movs)^[count] state := by
  have upTo : ∀ index ≤ count, (single inst 0 movs)^[index] state =
      (single inst base movs)^[index] state := by
    intro index
    induction index with
    | zero => exact fun _ => rfl
    | succ index inductionHypothesis =>
        intro below
        have same := alike index below (le_trans
          (Nat.mul_le_mul_right _ (Nat.sub_le _ _)) fits)
        rw [inductionHypothesis (by omega)] at same
        rw [Function.iterate_succ_apply', Function.iterate_succ_apply',
          inductionHypothesis (by omega), single, single, same]
  exact upTo count le_rfl

/-- When everything is stored over, the last moves determine the memory. -/
theorem iterate_movs_mem_eq
    {count : Nat}
    (large : 2 ^ 64 < count * inst.operandSize.bytes)
    (alike : ReadsAlike inst base movs state count) :
    ((single inst 0 movs)^[count] state).mem =
      ((single inst base movs)^[count] state).mem := by
  have positive : 0 < inst.operandSize.bytes := by
    cases inst.operandSize <;> decide
  have short : inst.operandSize.bytes ≤ 8 := by
    cases inst.operandSize <;> decide
  obtain ⟨places, all⟩ : ∃ places, places * inst.operandSize.bytes = 2 ^ 64 :=
    exists_eq_mul_left_of_dvd (by cases inst.operandSize <;> decide) |>.imp
      fun _ => Eq.symm
  rw [← all] at large
  obtain ⟨start, rfl⟩ := Nat.exists_eq_add_of_le
    (Nat.le_of_lt (Nat.lt_of_mul_lt_mul_right large))
  refine Memory.eq_of_load (place inst state start) positive short
    fun index inside => ?_
  rw [← all] at inside
  have below : index < places := Nat.lt_of_mul_lt_mul_right inside
  have stays : Stays inst (places + start) (start + index) movs := by
    rw [Stays, ← all]
    exact Nat.mul_le_mul_right _ (by omega)
  rw [← place_add, load_iterate_movs inst 0 state (by omega) stays,
    load_iterate_movs inst base state (by omega) stays]
  exact alike (start + index) (by omega) stays

/-- Moves in the segment do what moves without it do if the elements that stay
are the same. -/
theorem iterate_movs_iff (count : Nat) :
    SameBesideCount ((single inst 0 movs)^[count] state)
        ((single inst base movs)^[count] state) ↔
      ReadsAlike inst base movs state count := by
  constructor
  · intro same index below stays
    rw [← load_iterate_movs inst 0 state below stays,
      ← load_iterate_movs inst base state below stays, same.memory]
  · intro alike
    refine sameBesideCount_iterate inst base movs ?_ (by simp)
    rcases Nat.lt_or_ge (2 ^ 64) (count * inst.operandSize.bytes) with
      large | fits
    · exact iterate_movs_mem_eq inst base state large alike
    · rw [iterate_movs_eq inst base state fits alike]

end Moves

/-- The operations in a segment do what they do without it if and only if they
read the same. -/
theorem iterate_single_iff
    (inst : Instruction)
    (base : Word)
    (operation : Repeatable)
    (state : State)
    (count : Nat) :
    SameBesideCount ((single inst 0 operation)^[count] state)
        ((single inst base operation)^[count] state) ↔
      ReadsAlike inst base operation state count := by
  cases operation with
  | lods => exact iterate_lods_iff inst base state count
  | movs => exact iterate_movs_iff inst base state count
  | stos =>
      exact iff_of_true (SameBesideCount.refl _) fun _ _ stays => stays.elim

/-! ## The instruction -/

/-- The instruction ends as the operations do one after the other, when the
segment of the source has this base. -/
structure Repeats
    (inst : Instruction)
    (base : Word)
    (operation : Repeatable)
    (state final : State) : Prop where
  guest : SameBesideCount final
    ((single inst base operation)^[iterations inst state] state)
  count : final.get rcx = if inst.hasRep then 0 else state.get rcx
  pointers : ∀ pointer, pointer = rsi ∨ pointer = rdi ->
    final.get pointer = state.get pointer +
      if operation.advances pointer then
        BitVec.ofNat 64 (iterations inst state) * stride inst
      else
        0

theorem repeats_of_guest
    {inst : Instruction}
    {base : Word}
    {operation : Repeatable}
    {state final : State}
    (guest : SameBesideCount final
      ((single inst base operation)^[iterations inst state] state))
    (count : final.get rcx = if inst.hasRep then 0 else state.get rcx) :
    Repeats inst base operation state final := by
  refine ⟨guest, count, fun pointer isPointer => ?_⟩
  rw [← iterate_single_pointer inst base operation isPointer]
  rcases isPointer with rfl | rfl
  · exact guest.registers 6 (by decide)
  · exact guest.registers 7 (by decide)

/-- The string instructions that do not compare end, and do on x86's state what
their operations do one after the other when there is no segment. -/
theorem generate_repeats
    {env : Environment}
    (permits : env.PermitsEverything)
    (symbols : Instruction.HostSymbols)
    (entries : Nat)
    {inst : Instruction}
    {operation : Repeatable}
    (isRepeatable : inst.instructionClass = .repeatable operation)
    (wide : inst.addressSizeQword = true)
    (state : State) :
    ∃ code final, inst.generate symbols entries = some code ∧
      env.Exits code state (.ended final) ∧
      Repeats inst 0 operation state final := by
  obtain ⟨straight, short⟩ := execute_straight operation inst.operandSize
  have generated : inst.generate symbols entries =
      if inst.hasRep then
        some (repeated (operation.execute inst.operandSize))
      else
        some (operation.execute inst.operandSize) := by
    simp only [Instruction.generate, isRepeatable, generate, wide,
      not_true_eq_false, if_false]
  rw [generated]
  cases prefixed : inst.hasRep with
  | false =>
      obtain ⟨same, count⟩ := @execute_spec inst operation env.origin state
      refine ⟨_, _, rfl, Environment.exits_straight straight
        (permits.permitsAll state _), repeats_of_guest ?_ ?_⟩
      · simpa [iterations, prefixed] using same
      · simpa [prefixed] using count
  | true =>
      let body := pass inst operation
      have code : repeated (operation.execute inst.operandSize) =
          branchOver (beqz rcx) (body ++ [branchBack (bnqz rcx) body]) := rfl
      have reach := @branchOver_reach
        (body ++ [branchBack (bnqz rcx) body]).length (by
          simp only [body, pass, List.length_append, List.length_cons,
            List.length_nil]
          omega)
      by_cases zero : state.get rcx = 0
      · have skipped : Branch.beq.eval (state.get rcx) (state.get .zero) =
            true := by
          rw [zero]
          rfl
        refine ⟨_, state, rfl, Environment.exits_branch_taken permits skipped
          reach, repeats_of_guest ?_ ?_⟩
        · simp only [iterations, prefixed, if_true, zero]
          exact SameBesideCount.refl _
        · simp [prefixed, zero]
      · have entered : ¬ Branch.beq.eval (state.get rcx) (state.get .zero) =
            true := by
          rw [State.get_zero]
          simpa [Branch.eval] using zero
        obtain ⟨same, left⟩ := @iterate_passed inst operation
          (env.shift 1).origin state (state.get rcx).toNat
        refine ⟨_, _, rfl, Environment.exits_branch_skipped permits entered
          (loop_exits operation (permits.shift 1) state zero)
          (by simp), repeats_of_guest ?_ ?_⟩
        · simp only [iterations, prefixed, if_true]
          exact same
        · rw [left]
          simp [prefixed]

/-- When there is a segment the instruction ends as the operations do if they
read there what they read without it. -/
theorem Repeats.segment_iff
    {inst : Instruction}
    {operation : Repeatable}
    {state final : State}
    (without : Repeats inst 0 operation state final)
    (base : Word) :
    Repeats inst base operation state final ↔
      ReadsAlike inst base operation state (iterations inst state) := by
  rw [← iterate_single_iff]
  constructor
  · intro repeats
    exact without.guest.symm.trans repeats.guest
  · intro same
    exact repeats_of_guest (without.guest.trans same) without.count

/-- The string instructions that do not compare end, and do what their
operations do one after the other in the segment of the source, if and only if
these read there what they read without the segment. -/
theorem generate_repeats_iff
    {env : Environment}
    (permits : env.PermitsEverything)
    (symbols : Instruction.HostSymbols)
    (entries : Nat)
    {inst : Instruction}
    {operation : Repeatable}
    (isRepeatable : inst.instructionClass = .repeatable operation)
    (wide : inst.addressSizeQword = true)
    (state : State) :
    ∃ code final, inst.generate symbols entries = some code ∧
      env.Exits code state (.ended final) ∧
      (Repeats inst (inst.segmentBase state) operation state final ↔
        ReadsAlike inst (inst.segmentBase state) operation state
          (iterations inst state)) := by
  obtain ⟨code, final, generated, exits, without⟩ :=
    generate_repeats permits symbols entries isRepeatable wide state
  exact ⟨code, final, generated, exits, without.segment_iff _⟩

/-- `fs rep movsb` -/
def fsRepMovsb : Instruction :=
  InstructionClass.construct (.repeatable .movs)
    { type := .movs
      operandSize := .byte
      hasRep := true
      segment := .fs }

/-- Three bytes are at the source, of which the last one overlaps the
destination.  The segment `fs` with the base 0x2000 has the same bytes there and
another one behind them. -/
def fsElements : State :=
  (({ Instruction.zeroState with
    mem := fun address =>
      if address = 0x249 then 0x20
      else if address = 0x1000 ∨ address = 0x3000 then 0x41
      else if address = 0x1001 ∨ address = 0x3001 then 0x42
      else if address = 0x3002 then 0x41
      else if address = 0x3003 then 0x43
      else 0 }.set rsi 0x1000).set rdi 0x1002).set rcx 3

theorem generate_repeats_iff_fsRepMovsb :
    ∃ code final, fsRepMovsb.generate Instruction.sampleSymbols 0 = some code ∧
      Stub.environment.Exits code fsElements (.ended final) ∧
      Repeats fsRepMovsb (fsRepMovsb.segmentBase fsElements) .movs fsElements
        final := by
  obtain ⟨code, final, generated, exits, repeats_iff⟩ :=
    @generate_repeats_iff Stub.environment (fun _ _ => rfl)
      Instruction.sampleSymbols 0 fsRepMovsb .movs rfl rfl fsElements
  exact ⟨code, final, generated, exits,
    repeats_iff.mpr (by decide +kernel)⟩

/-- `fs lodsb` -/
def fsLodsb : Instruction :=
  InstructionClass.construct (.repeatable .lods)
    { type := .lods
      operandSize := .byte
      segment := .fs }

/-- Zero is loaded and not the byte in the segment. -/
theorem fsLodsb_misses :
    ∃ code final, fsLodsb.generate Instruction.sampleSymbols 0 = some code ∧
      Stub.environment.Exits code (fsElements.set rsi 0x1003) (.ended final) ∧
      ¬ Repeats fsLodsb (fsLodsb.segmentBase (fsElements.set rsi 0x1003)) .lods
        (fsElements.set rsi 0x1003) final := by
  obtain ⟨code, final, generated, exits, without⟩ :=
    @generate_repeats Stub.environment (fun _ _ => rfl)
      Instruction.sampleSymbols 0 fsLodsb .lods rfl rfl
      (fsElements.set rsi 0x1003)
  refine ⟨code, final, generated, exits, ?_⟩
  rw [without.segment_iff]
  decide +kernel

end Repeatable

end Oxtra
